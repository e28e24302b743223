import Rost.Shell.Dispatch

/-!
# Entering lines

`handle_key` hands a line to `execute_line` and then changes the directory if the line asks for it.  The depth to which
scripts may be nested does not matter to a line that returns (`shellDispatch_le`), and the history does not matter to
one without `!`, if no script has one (`shellDispatch_blind`).
-/

namespace Rost.Shell

open Vfs (Bytes ascii)

variable {ω : Type}

/-! ### The Enter key -/

/-- The change of the directory. -/
def Ctx.moveTo (sh : Ctx ω) (path : Bytes) : Ctx ω :=
  { sh with
    vars := ((sh.vars.set (ascii "OLDPWD") sh.cwd).1.set (ascii "PWD") path).1
    cwd := path }

/-- What the shell makes of the result of a line, and whether the directory has been changed; `none` when it exits. -/
def settle (sh : Ctx ω) : Ctx ω × Action × Nat → Option (Ctx ω × Bool)
  | (_, .exit _, _) => none
  | (sub, .cd path, code) => some (({ sh.absorb sub with lastExit := code } : Ctx ω).moveTo path, true)
  | (sub, .cont, code) => some ({ sh.absorb sub with lastExit := code }, false)

/-- A line is executed; `none` when the shell exits or a command does not return. -/
def runLine (d : Dispatcher ω) (sh : Ctx ω) (line : Bytes) : Option (Ctx ω × Bool) :=
  (executeLine d line sh).bind (settle sh)

/-- The Enter key, when the editor holds `line`. -/
def enter (d : Dispatcher ω) (sh : Ctx ω) (line : Bytes) : Option (Ctx ω) :=
  if line = [] then some sh else (runLine d { sh with history := sh.history.push line } line).map Prod.fst

/-- The editor takes 255 bytes of a line that is typed. -/
def typed (line : Bytes) : Bytes := line.take (lineMax - 1)

/-- Lines are typed one after the other. -/
def typeLines (d : Dispatcher ω) (sh : Ctx ω) : List Bytes → Option (Ctx ω)
  | [] => some sh
  | line :: rest => (enter d sh (typed line)).bind fun sh => typeLines d sh rest

/-! ### What a command can do -/

/-- A command runs a script with the words of the line, or returns with other stores and another world; the history plays
no part in which. -/
theorem dispatchSingle_cases (out : Outside ω) (ctx : Ctx ω) (s : Slice) :
    (∃ args, args = tokenize (expandAlias ctx.aliases s.bytes) ∧
      ∀ source h, dispatchSingle out source { ctx with history := h } s = source { ctx with history := h } args) ∨
    ∃ vars aliases world action code, ∀ source h, dispatchSingle out source { ctx with history := h } s =
      some ({ ctx with history := h, vars := vars, aliases := aliases, world := world }, action, code) := by
  unfold dispatchSingle
  by_cases hempty : s.bytes = []
  · exact .inr ⟨_, _, _, _, _, fun source h => if_pos hempty⟩
  · simp only [if_neg hempty]
    cases findAssignment s.bytes with
    | some binding =>
      obtain ⟨name, val⟩ := binding
      exact .inr ⟨_, _, _, _, _, fun source h => rfl⟩
    | none =>
      dsimp only
      by_cases hword : arg (tokenize s.bytes) 0 = []
      · exact .inr ⟨_, _, _, _, _, fun source h => if_pos hword⟩
      · simp only [if_neg hword]
        unfold dispatch
        generalize hargs : tokenize (expandAlias ctx.aliases s.bytes) = args
        dsimp only
        by_cases hcmd : arg args 0 = []
        · exact .inr ⟨_, _, _, _, _, fun source h => if_pos hcmd⟩
        · simp only [if_neg hcmd]
          have hattempt : ∀ ready : Bool, ∃ vars aliases world action code, ∀ h : History,
              (if ready = true then
                some (({ ctx with history := h, world := (out.attempt ctx.world ctx.cwd args).1 } : Ctx ω), Action.cont,
                  verdict (out.attempt ctx.world ctx.cwd args).2)
              else some ({ ctx with history := h }, .cont, 1)) =
                some ({ ctx with history := h, vars := vars, aliases := aliases, world := world }, action, code) := by
            intro ready
            cases ready with
            | true => exact ⟨_, _, _, _, _, fun h => rfl⟩
            | false => exact ⟨_, _, _, _, _, fun h => rfl⟩
          cases builtin? (arg args 0) with
          | none => exact .inr ⟨_, _, _, _, _, fun source h => rfl⟩
          | some b =>
            cases b with
            | source => exact .inl ⟨args, rfl, fun source h => rfl⟩
            | write =>
              obtain ⟨vars, aliases, world, action, code, heq⟩ := hattempt (decide (2 ≤ args.length))
              exact .inr ⟨vars, aliases, world, action, code, fun source h => heq h⟩
            | attempts =>
              obtain ⟨vars, aliases, world, action, code, heq⟩ := hattempt (arg args 1 != [])
              exact .inr ⟨vars, aliases, world, action, code, fun source h => heq h⟩
            | _ => exact .inr ⟨_, _, _, _, _, fun source h => rfl⟩

section

variable {out : Outside ω} (d : Dispatcher ω) (ctx : Ctx ω) {args : List Bytes} {world : ω} {script : Bytes}

theorem cmdSource_of_no_path (out : Outside ω) (d : Dispatcher ω) (ctx : Ctx ω) (hpath : arg args 1 = []) :
    cmdSource out d ctx args = some (ctx, .cont, 1) := if_pos hpath

theorem cmdSource_of_missing (hpath : arg args 1 ≠ [])
    (hread : readScript out (pathAsWords (resolve ctx.cwd (arg args 1))) ctx.world = (world, none)) :
    cmdSource out d ctx args = some ({ ctx with world := world }, .cont, 1) := by
  unfold cmdSource
  rw [if_neg hpath, hread]

theorem cmdSource_of_script (hpath : arg args 1 ≠ [])
    (hread : readScript out (pathAsWords (resolve ctx.cwd (arg args 1))) ctx.world = (world, some script)) :
    cmdSource out d ctx args = runLines d { ctx with world := world } 0 (scriptLines script) := by
  unfold cmdSource
  rw [if_neg hpath, hread]

end

/-! ### The depth -/

/-- Where `d` returns, `d'` returns the same. -/
def Dispatcher.Below (d d' : Dispatcher ω) : Prop := ∀ ctx s r, d ctx s = some r → d' ctx s = some r

section

variable {d d' : Dispatcher ω} (hd : d.Below d')
include hd

private theorem executeParts_below (parts : List CompoundPart) {p : Progress ω} {r : Ctx ω × Action × Nat}
    (h : executeParts d p parts = some r) : executeParts d' p parts = some r := by
  induction parts generalizing p with
  | nil => exact h
  | cons part rest ih =>
    unfold executeParts at h ⊢
    split
    · rename_i hskip
      rw [if_pos hskip] at h
      exact ih h
    · rename_i hskip
      rw [if_neg hskip] at h
      cases hone : d p.ctx part.cmd.trim with
      | none =>
        rw [hone] at h
        cases h
      | some out =>
        rw [hone] at h
        rw [hd _ _ _ hone]
        obtain ⟨ctx, action, code⟩ := out
        cases action with
        | exit c => exact h
        | cont | cd path => exact ih h

theorem executeLine_below {line : Bytes} {ctx : Ctx ω} {r : Ctx ω × Action × Nat} (h : executeLine d line ctx = some r) :
    executeLine d' line ctx = some r := executeParts_below hd _ h

private theorem runLines_below (lines : List Bytes) {ctx : Ctx ω} {lastExit : Nat} {r : Ctx ω × Action × Nat}
    (h : runLines d ctx lastExit lines = some r) : runLines d' ctx lastExit lines = some r := by
  induction lines generalizing ctx lastExit with
  | nil => exact h
  | cons line rest ih =>
    unfold runLines at h ⊢
    cases hone : executeLine d line { ctx with lastExit := lastExit } with
    | none =>
      rw [hone] at h
      cases h
    | some out =>
      rw [hone] at h
      rw [executeLine_below hd hone]
      obtain ⟨sub, action, code⟩ := out
      cases action with
      | cont => exact ih h
      | exit c | cd path => exact h

theorem enter_below {sh t : Ctx ω} {line : Bytes} (h : enter d sh line = some t) : enter d' sh line = some t := by
  unfold enter at h ⊢
  split
  · rename_i hempty
    rwa [if_pos hempty] at h
  · rename_i hempty
    rw [if_neg hempty] at h
    obtain ⟨r, hr, hfst⟩ := Option.map_eq_some_iff.1 h
    obtain ⟨out, hout, hsettle⟩ := Option.bind_eq_some_iff.1 hr
    have hr' : runLine d' { sh with history := sh.history.push line } line = some r :=
      Option.bind_eq_some_iff.2 ⟨out, executeLine_below hd hout, hsettle⟩
    rw [hr', Option.map_some, hfst]

end

theorem shellDispatch_succ (out : Outside ω) (depth : Nat) :
    (shellDispatch out depth).Below (shellDispatch out (depth + 1)) := by
  induction depth with
  | zero =>
    intro ctx s r h
    unfold shellDispatch at h ⊢
    rcases dispatchSingle_cases out ctx s with ⟨args, -, heq⟩ | ⟨vars, aliases, world, action, code, heq⟩
    · rw [heq _ ctx.history] at h
      cases h
    · rw [heq _ ctx.history] at h ⊢
      exact h
  | succ depth ih =>
    intro ctx s r h
    conv at h => lhs; unfold shellDispatch
    conv => lhs; unfold shellDispatch
    rcases dispatchSingle_cases out ctx s with ⟨args, -, heq⟩ | ⟨vars, aliases, world, action, code, heq⟩
    · rw [heq _ ctx.history] at h ⊢
      by_cases hpath : arg args 1 = []
      · rwa [cmdSource_of_no_path out _ _ hpath] at h ⊢
      · rcases hread : readScript out (pathAsWords (resolve ctx.cwd (arg args 1))) ctx.world with ⟨world, _ | script⟩
        · rwa [cmdSource_of_missing _ _ hpath hread] at h ⊢
        · rw [cmdSource_of_script _ _ hpath hread] at h ⊢
          exact runLines_below ih _ h
    · rw [heq _ ctx.history] at h ⊢
      exact h

/-- A command that returns does the same when scripts may be nested deeper. -/
theorem shellDispatch_le (out : Outside ω) {m n : Nat} (hle : m ≤ n) : (shellDispatch out m).Below (shellDispatch out n) := by
  induction hle with
  | refl => exact fun _ _ _ h => h
  | step _ ih => exact fun ctx s r h => shellDispatch_succ out _ ctx s r (ih ctx s r h)

/-- A line comes to one end at most. -/
theorem enter_unique {out : Outside ω} {m n : Nat} {sh s t : Ctx ω} {line : Bytes}
    (hs : enter (shellDispatch out m) sh line = some s) (ht : enter (shellDispatch out n) sh line = some t) : s = t := by
  have hs' := enter_below (shellDispatch_le out (Nat.le_max_left m n)) hs
  have ht' := enter_below (shellDispatch_le out (Nat.le_max_right m n)) ht
  exact Option.some.inj (hs'.symm.trans ht')

/-! ### The history -/

/-- No file that is read holds a reference to the history. -/
def Outside.NoBang (out : Outside ω) : Prop :=
  ∀ world path offset total bytes, (out.read world path offset).2 = .data total bytes → bang ∉ bytes

private theorem not_bang_readLoop {out : Outside ω} (hout : out.NoBang) (path : Bytes) (n : Nat) {world : ω}
    {total : Option Nat} {offset : Nat} {buf script : Bytes} (hbuf : bang ∉ buf)
    (h : (readLoop out path n world total offset buf).2 = some script) : bang ∉ script := by
  induction n generalizing world total offset buf with
  | zero =>
    unfold readLoop at h
    cases h
    exact hbuf
  | succ n ih =>
    unfold readLoop at h
    have hchunk := hout world path offset
    generalize out.read world path offset = reply at h hchunk
    obtain ⟨world', reply⟩ := reply
    cases reply with
    | data announced chunk =>
      have hchunk : bang ∉ chunk := hchunk announced chunk rfl
      have hmore : bang ∉ buf ++ chunk.take (bufCap - buf.length) := by
        intro hmem
        rcases List.mem_append.1 hmem with hmem | hmem
        · exact hbuf hmem
        · exact hchunk (List.mem_of_mem_take hmem)
      dsimp only at h
      split at h
      · cases h
        exact hbuf
      · split at h
        · cases h
          exact hmore
        · exact ih hmore h
    | error => cases h
    | done | other =>
      cases h
      exact hbuf

theorem not_bang_readScript {out : Outside ω} (hout : out.NoBang) {path : Bytes} {world : ω} {script : Bytes}
    (h : (readScript out path world).2 = some script) : bang ∉ script := by
  unfold readScript at h
  exact not_bang_readLoop hout path bufCap List.not_mem_nil h

private theorem mem_splitOnP {p : Byte → Bool} {s : Bytes} : ∀ l ∈ s.splitOnP p, ∀ b ∈ l, b ∈ s := by
  induction s with
  | nil =>
    intro l hl b hb
    rw [List.splitOnP_nil, List.mem_singleton] at hl
    rw [hl] at hb
    cases hb
  | cons c s ih =>
    intro l hl b hb
    rw [List.splitOnP_cons_eq_if_modifyHead] at hl
    split at hl
    · rcases List.mem_cons.1 hl with rfl | hl
      · cases hb
      · exact List.mem_cons_of_mem c (ih l hl b hb)
    · obtain ⟨first, rest, hsplit⟩ := List.exists_cons_of_ne_nil (List.splitOnP_ne_nil p s)
      rw [hsplit, List.modifyHead_cons] at hl
      rcases List.mem_cons.1 hl with rfl | hl
      · rcases List.mem_cons.1 hb with rfl | hb
        · exact List.mem_cons_self
        · exact List.mem_cons_of_mem c (ih first (hsplit ▸ List.mem_cons_self) b hb)
      · exact List.mem_cons_of_mem c (ih l (hsplit ▸ List.mem_cons_of_mem first hl) b hb)

theorem mem_of_mem_trim {s : Bytes} {b : Byte} (h : b ∈ trim s) : b ∈ s := by
  unfold trim at h
  have h := (List.dropWhile_suffix isBlank).subset (List.mem_reverse.1 h)
  exact (List.dropWhile_suffix isBlank).subset (List.mem_reverse.1 h)

theorem not_bang_scriptLines {script : Bytes} (h : bang ∉ script) : ∀ l ∈ scriptLines script, bang ∉ l := by
  intro l hl hmem
  unfold scriptLines at hl
  obtain ⟨raw, hraw, rfl⟩ := List.mem_map.1 (List.mem_of_mem_filter hl)
  exact h (mem_splitOnP raw hraw bang (mem_of_mem_trim hmem))

/-- The history plays no part in what `d` does. -/
def Dispatcher.Blind (d : Dispatcher ω) : Prop :=
  ∀ ctx h s, d { ctx with history := h } s = (d ctx s).map fun r => ({ r.1 with history := h }, r.2)

section

variable {d : Dispatcher ω} (hd : d.Blind) (h : History)
include hd

private theorem executeParts_blind (parts : List CompoundPart) (p : Progress ω) :
    executeParts d { p with ctx := { p.ctx with history := h } } parts =
      (executeParts d p parts).map fun r => ({ r.1 with history := h }, r.2) := by
  induction parts generalizing p with
  | nil => rfl
  | cons part rest ih =>
    unfold executeParts
    dsimp only
    split
    · exact ih p
    · rw [hd]
      cases d p.ctx part.cmd.trim with
      | none => rfl
      | some out =>
        obtain ⟨ctx, action, code⟩ := out
        have hnext := fun final : Action => ih
          { ctx := { ctx with lastExit := code }
            exitCode := code
            finalAction := final
            skip := stops part.joiner code
            skipReason := if stops part.joiner code then part.joiner else p.skipReason }
        cases action with
        | exit c => rfl
        | cont => exact hnext (p.finalAction.after .cont)
        | cd path => exact hnext (p.finalAction.after (.cd path))

theorem executeLine_blind {line : Bytes} (hline : bang ∉ line) (ctx : Ctx ω) :
    executeLine d line { ctx with history := h } =
      (executeLine d line ctx).map fun r => ({ r.1 with history := h }, r.2) := by
  unfold executeLine
  rw [expandHistory_of_plain _ hline, expandHistory_of_plain _ hline]
  exact executeParts_blind hd h _ ⟨ctx, ctx.lastExit, .cont, false, .seq⟩

private theorem runLines_blind {lines : List Bytes} (hlines : ∀ l ∈ lines, bang ∉ l) (ctx : Ctx ω) (lastExit : Nat) :
    runLines d { ctx with history := h } lastExit lines =
      (runLines d ctx lastExit lines).map fun r => ({ r.1 with history := h }, r.2) := by
  induction lines generalizing ctx lastExit with
  | nil => rfl
  | cons line rest ih =>
    have hline := executeLine_blind hd h (hlines line List.mem_cons_self) { ctx with lastExit := lastExit }
    unfold runLines
    dsimp only at hline ⊢
    rw [hline]
    cases executeLine d line { ctx with lastExit := lastExit } with
    | none => rfl
    | some out =>
      obtain ⟨sub, action, code⟩ := out
      cases action with
      | cont => exact ih (fun l hl => hlines l (List.mem_cons_of_mem line hl)) (ctx.absorb sub) code
      | exit c | cd path => rfl

private theorem cmdSource_blind {out : Outside ω} (hout : out.NoBang) (ctx : Ctx ω) (args : List Bytes) :
    cmdSource out d { ctx with history := h } args =
      (cmdSource out d ctx args).map fun r => ({ r.1 with history := h }, r.2) := by
  by_cases hpath : arg args 1 = []
  · rw [cmdSource_of_no_path out _ _ hpath, cmdSource_of_no_path out _ _ hpath]
    rfl
  · rcases hread : readScript out (pathAsWords (resolve ctx.cwd (arg args 1))) ctx.world with ⟨world, _ | script⟩
    · have hother := cmdSource_of_missing d { ctx with history := h } hpath hread
      rw [cmdSource_of_missing _ _ hpath hread, hother]
      rfl
    · have hother := cmdSource_of_script d { ctx with history := h } hpath hread
      have hbang : bang ∉ script := not_bang_readScript hout (congrArg Prod.snd hread)
      rw [cmdSource_of_script _ _ hpath hread, hother]
      exact runLines_blind hd h (not_bang_scriptLines hbang) { ctx with world := world } 0

/-- A line without `!` does the same in a shell with another history. -/
theorem runLine_blind {line : Bytes} (hline : bang ∉ line) (sh : Ctx ω) :
    runLine d { sh with history := h } line =
      (runLine d sh line).map fun r => ({ r.1 with history := h }, r.2) := by
  unfold runLine
  rw [executeLine_blind hd h hline]
  cases executeLine d line sh with
  | none => rfl
  | some out =>
    obtain ⟨sub, action, code⟩ := out
    cases action <;> rfl

end

/-- If no file refers to the history, it plays no part in what a command does. -/
theorem shellDispatch_blind {out : Outside ω} (hout : out.NoBang) (depth : Nat) : (shellDispatch out depth).Blind := by
  induction depth with
  | zero =>
    intro ctx h s
    unfold shellDispatch
    rcases dispatchSingle_cases out ctx s with ⟨args, -, heq⟩ | ⟨vars, aliases, world, action, code, heq⟩
    · rw [heq _ h, heq _ ctx.history]
      rfl
    · rw [heq _ h, heq _ ctx.history]
      rfl
  | succ depth ih =>
    intro ctx h s
    unfold shellDispatch
    rcases dispatchSingle_cases out ctx s with ⟨args, -, heq⟩ | ⟨vars, aliases, world, action, code, heq⟩
    · rw [heq _ h, heq _ ctx.history]
      exact cmdSource_blind ih h hout ctx args
    · rw [heq _ h, heq _ ctx.history]
      rfl

end Rost.Shell
