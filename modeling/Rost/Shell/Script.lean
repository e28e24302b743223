import Rost.Shell.Splitting
import Rost.Shell.Typing

/-!
# Scripts and typing

Running a script is to leave the variables, the aliases, the directory and the status as typing its lines does, and so is
`a ; b` as entering `a` and then `b`.  But a script starts with status 0 and ends at the first line that changes the
directory (`enter_sourceLine`), and `a ; b` executes `b` before the change of directory that `a` asks for (`enter_pair`).
`scripts_iff` says when this makes no difference; it makes none when nothing before the last line changes the directory
and the status is 0 (`source_eq_typing`, `pair_eq_entering`).
-/

namespace Rost.Shell

open Vfs (Bytes ascii)

variable {ω : Type}

/-! ### What is compared -/

/-- What a script is to leave as typing does. -/
def Ctx.seen (sh : Ctx ω) : VarStore × AliasStore × Bytes × Nat := (sh.vars, sh.aliases, sh.cwd, sh.lastExit)

/-- The shell comes back to the prompt from `run`, and shows what `t` shows. -/
def Leaves (out : Outside ω) (run : Dispatcher ω → Option (Ctx ω)) (t : Ctx ω) : Prop :=
  ∃ depth s, run (shellDispatch out depth) = some s ∧ s.seen = t.seen

/-- The shell comes to `t` when the lines are typed. -/
def Types (out : Outside ω) (sh : Ctx ω) (lines : List Bytes) (t : Ctx ω) : Prop :=
  ∃ depth, typeLines (shellDispatch out depth) sh lines = some t

def sourceLine (path : Bytes) : Bytes := ascii "source " ++ path

/-- A word that stands for itself in every line. -/
def IsWord (path : Bytes) : Prop :=
  path ≠ [] ∧ path.length ≤ 248 ∧ ∀ b ∈ path, b ∉ [space, 0x09, bang, dquote, dollar, squote, tilde, semicolon, ampersand, bar]

instance (path : Bytes) : Decidable (IsWord path) := inferInstanceAs (Decidable (_ ∧ _))

/-- Lines are executed up to the first that changes the directory. -/
def throughCd (d : Dispatcher ω) (sh : Ctx ω) : List Bytes → Option (Ctx ω)
  | [] => some sh
  | line :: rest => (runLine d sh line).bind fun r => if r.2 then some r.1 else throughCd d r.1 rest

/-- After `a`, `b` is executed before the change of directory that `a` asks for; if `b` asks for one, that of `a` is
dropped. -/
def heldBack (d : Dispatcher ω) (sh : Ctx ω) (a b : Bytes) : Option (Ctx ω) :=
  match executeLine d a sh with
  | none => none
  | some (_, .exit _, _) => none
  | some (sub, .cont, code) => (runLine d { sh.absorb sub with lastExit := code } b).map Prod.fst
  | some (sub, .cd path, code) =>
    (runLine d { sh.absorb sub with lastExit := code } b).map fun r => if r.2 then r.1 else r.1.moveTo path

/-! ### Lines of one and two commands -/

/-- A command does the same at every place of a line. -/
def Dispatcher.Positionless (d : Dispatcher ω) : Prop := ∀ ctx s s', s.bytes = s'.bytes → d ctx s = d ctx s'

/-- A command leaves the history, the directory and the process id of the context. -/
def Dispatcher.Frames (d : Dispatcher ω) : Prop :=
  ∀ ctx s r, d ctx s = some r → r.1.history = ctx.history ∧ r.1.cwd = ctx.cwd ∧ r.1.pid = ctx.pid

theorem dispatchSingle_positionless (out : Outside ω) (source : Ctx ω → List Bytes → Option (Ctx ω × Action × Nat)) :
    (dispatchSingle out source).Positionless := by
  intro ctx s s' h
  unfold dispatchSingle
  rw [h]

theorem shellDispatch_positionless (out : Outside ω) (depth : Nat) : (shellDispatch out depth).Positionless := by
  cases depth with
  | zero | succ depth => exact dispatchSingle_positionless out _

private theorem runLines_frames (d : Dispatcher ω) (lines : List Bytes) {ctx : Ctx ω} {lastExit : Nat}
    {r : Ctx ω × Action × Nat} (h : runLines d ctx lastExit lines = some r) :
    r.1.history = ctx.history ∧ r.1.cwd = ctx.cwd ∧ r.1.pid = ctx.pid := by
  induction lines generalizing ctx lastExit with
  | nil =>
    cases h
    exact ⟨rfl, rfl, rfl⟩
  | cons line rest ih =>
    unfold runLines at h
    cases hone : executeLine d line { ctx with lastExit := lastExit } with
    | none =>
      rw [hone] at h
      cases h
    | some out =>
      rw [hone] at h
      obtain ⟨sub, action, code⟩ := out
      cases action with
      | cont =>
        have hrest := @ih (ctx.absorb sub) code h
        exact hrest
      | exit c | cd path =>
        cases h
        exact ⟨rfl, rfl, rfl⟩

theorem shellDispatch_frames (out : Outside ω) (depth : Nat) : (shellDispatch out depth).Frames := by
  intro ctx s r h
  cases depth with
  | zero =>
    unfold shellDispatch at h
    rcases dispatchSingle_cases out ctx s with ⟨args, -, heq⟩ | ⟨vars, aliases, world, action, code, heq⟩
    · rw [heq _ ctx.history] at h
      cases h
    · rw [heq _ ctx.history] at h
      cases h
      exact ⟨rfl, rfl, rfl⟩
  | succ depth =>
    unfold shellDispatch at h
    rcases dispatchSingle_cases out ctx s with ⟨args, -, heq⟩ | ⟨vars, aliases, world, action, code, heq⟩
    · rw [heq _ ctx.history] at h
      by_cases hpath : arg args 1 = []
      · rw [cmdSource_of_no_path _ _ _ hpath] at h
        cases h
        exact ⟨rfl, rfl, rfl⟩
      · rcases hread : readScript out (pathAsWords (resolve ctx.cwd (arg args 1))) ctx.world with ⟨world, _ | script⟩
        · rw [cmdSource_of_missing _ _ hpath hread] at h
          cases h
          exact ⟨rfl, rfl, rfl⟩
        · rw [cmdSource_of_script _ _ hpath hread] at h
          have hlines := runLines_frames _ _ h
          exact hlines
    · rw [heq _ ctx.history] at h
      cases h
      exact ⟨rfl, rfl, rfl⟩

/-- What `execute_line` returns for one command. -/
def noted (r : Ctx ω × Action × Nat) : Ctx ω × Action × Nat := ({ r.1 with lastExit := r.2.2 }, r.2)

/-- What `execute_line` asks for after two commands. -/
def Action.followedBy : Action → Action → Action
  | first, .cont => first
  | _, second => second

section

variable {d : Dispatcher ω} {a b : Bytes}

theorem executeLine_single (hd : d.Positionless) (ha : Single a) (hfree : ExpansionFree a) (hlen : a.length < lineMax)
    (ctx : Ctx ω) : executeLine d a ctx = (d ctx ⟨0, trim a⟩).map noted := by
  unfold executeLine
  dsimp only
  rw [expansions_of_free hfree hlen, splitCompound_single ha]
  have hcmd : d ctx ((Slice.mk 0 a).trim.trim) = d ctx ⟨0, trim a⟩ := hd _ _ _ (trim_trim a)
  unfold executeParts
  rw [Bool.false_and, if_neg Bool.false_ne_true]
  dsimp only
  rw [hcmd]
  cases d ctx ⟨0, trim a⟩ with
  | none => rfl
  | some out =>
    obtain ⟨ctx', action, code⟩ := out
    cases action <;> rfl

theorem executeLine_pair (hd : d.Positionless) (ha : Single a) (hb : Single b) (hfreea : ExpansionFree a)
    (hfreeb : ExpansionFree b) (hlen : (a ++ semicolon :: b).length < lineMax) (ctx : Ctx ω) :
    executeLine d (a ++ semicolon :: b) ctx = (executeLine d a ctx).bind fun r =>
      match r.2.1 with
      | .exit _ => some r
      | first => (executeLine d b r.1).map fun r' => (r'.1, first.followedBy r'.2.1, r'.2.2) := by
  have hfree : ExpansionFree (a ++ semicolon :: b) := by
    have hsemi : ExpansionFree [semicolon] := by decide
    exact hfreea.append (hsemi.append hfreeb)
  have hlen' := hlen
  rw [List.length_append, List.length_cons] at hlen'
  have hlena : a.length < lineMax := by omega
  have hlenb : b.length < lineMax := by omega
  rw [executeLine_single hd ha hfreea hlena]
  conv => lhs; unfold executeLine
  dsimp only
  rw [expansions_of_free hfree hlen, splitCompound_pair ha hb]
  have hfirst : d ctx (Slice.mk 0 a).trim = d ctx ⟨0, trim a⟩ := hd _ _ _ rfl
  have hsecond : ∀ ctx, d ctx ((Slice.mk (a.length + 1) b).trim.trim) = d ctx ⟨0, trim b⟩ :=
    fun ctx => hd _ _ _ (trim_trim b)
  conv => lhs; unfold executeParts
  rw [Bool.false_and, if_neg Bool.false_ne_true]
  dsimp only
  rw [hfirst]
  cases d ctx ⟨0, trim a⟩ with
  | none => rfl
  | some out =>
    obtain ⟨ctx', action, code⟩ := out
    have hrest : ∀ final, executeParts d ⟨{ ctx' with lastExit := code }, code, final, false, .seq⟩
        [⟨(Slice.mk (a.length + 1) b).trim, .seq⟩] =
          (executeLine d b { ctx' with lastExit := code }).map fun r' => (r'.1, final.followedBy r'.2.1, r'.2.2) := by
      intro final
      rw [executeLine_single hd hb hfreeb hlenb]
      unfold executeParts
      rw [Bool.false_and, if_neg Bool.false_ne_true]
      dsimp only
      rw [hsecond]
      cases d { ctx' with lastExit := code } ⟨0, trim b⟩ with
      | none => rfl
      | some out =>
        obtain ⟨ctx'', action', code'⟩ := out
        cases action' <;> rfl
    cases action with
    | exit c => rfl
    | cont => exact hrest .cont
    | cd path => exact hrest (.cd path)

end

/-! ### The line that runs a script -/

private theorem operatorless_of_plain {s : Bytes}
    (h : ∀ b ∈ s, b ≠ dquote ∧ b ≠ squote ∧ b ≠ semicolon ∧ b ≠ ampersand ∧ b ≠ bar) :
    operatorless none s = true ∧ quoteAfter none s = none := by
  induction s with
  | nil => exact ⟨rfl, rfl⟩
  | cons b s ih =>
    obtain ⟨hd, hs, hsemi, hand, hor⟩ := h b List.mem_cons_self
    obtain ⟨hop, hquote⟩ := ih fun c hc => h c (List.mem_cons_of_mem b hc)
    have hnot : ¬ (b = dquote ∨ b = squote) := by rintro (h | h) <;> contradiction
    have hjoin : joinerAt b s = none := by
      unfold joinerAt
      rw [if_neg hsemi, if_neg (fun h => hand h.1), if_neg (fun h => hor h.1)]
    unfold operatorless quoteAfter
    rw [if_neg hnot, if_neg hnot, hjoin, hop, hquote]
    exact ⟨rfl, rfl⟩

section

variable {path : Bytes} (hpath : IsWord path)
include hpath

private theorem sourceLine_free : ExpansionFree (sourceLine path) := by
  obtain ⟨-, -, hplain⟩ := hpath
  have hpre : ExpansionFree (ascii "source ") := by decide
  refine hpre.append ⟨fun h => ?_, fun h => ?_, ?_⟩
  · exact hplain bang h (by decide)
  · exact hplain dollar h (by decide)
  · have hno : ∀ (prev : Option Byte) (s : Bytes), (∀ b ∈ s, b ∈ path) → noTilde prev s = true := by
      intro prev s hs
      induction s generalizing prev with
      | nil => rfl
      | cons b s ih =>
        unfold noTilde
        rw [ih (some b) fun c hc => hs c (List.mem_cons_of_mem b hc), Bool.and_true, Bool.not_eq_true',
          decide_eq_false_iff_not]
        rintro ⟨rfl, -⟩
        exact hplain tilde (hs tilde List.mem_cons_self) (by decide)
    exact hno none path fun b hb => hb

private theorem trim_sourceLine : trim (sourceLine path) = sourceLine path := by
  obtain ⟨hne, -, hplain⟩ := hpath
  have hhead : (sourceLine path).dropWhile isBlank = sourceLine path := rfl
  have hlast : (sourceLine path).reverse.dropWhile isBlank = (sourceLine path).reverse := by
    unfold sourceLine
    rw [List.reverse_append]
    cases hrev : path.reverse with
    | nil => exact absurd (List.reverse_eq_nil_iff.1 hrev) hne
    | cons b rest =>
      have hb : b ∈ path := by
        rw [← List.mem_reverse, hrev]
        exact List.mem_cons_self
      have hblank : ¬ isBlank b = true := by
        intro h
        rcases Bool.or_eq_true_iff.1 h with h | h
        · exact hplain b hb (by rw [eq_of_beq h]; decide)
        · exact hplain b hb (by rw [eq_of_beq h]; decide)
      rw [List.cons_append, List.dropWhile_cons_of_neg hblank]
  unfold trim
  rw [hhead, hlast, List.reverse_reverse]

private theorem sourceLine_single : Single (sourceLine path) := by
  have htrim := trim_sourceLine hpath
  obtain ⟨-, -, hplain⟩ := hpath
  have hcmd : ∀ b ∈ ascii "source ", b ≠ dquote ∧ b ≠ squote ∧ b ≠ semicolon ∧ b ≠ ampersand ∧ b ≠ bar := by decide
  have hall : ∀ b ∈ sourceLine path, b ≠ dquote ∧ b ≠ squote ∧ b ≠ semicolon ∧ b ≠ ampersand ∧ b ≠ bar := by
    intro b hb
    rcases List.mem_append.1 hb with hb | hb
    · exact hcmd b hb
    · refine ⟨?_, ?_, ?_, ?_, ?_⟩ <;>
      · rintro rfl
        exact hplain _ hb (by decide)
  obtain ⟨hop, hquote⟩ := operatorless_of_plain hall
  exact ⟨hop, hquote, by rw [htrim]; exact List.cons_ne_nil _ _⟩

private theorem tokenize_sourceLine : tokenize (sourceLine path) = [ascii "source", path] := by
  obtain ⟨hne, -, hplain⟩ := hpath
  have hword : ∀ b ∈ path, b ≠ space ∧ b ≠ dquote ∧ b ≠ squote := by
    intro b hb
    refine ⟨?_, ?_, ?_⟩ <;>
    · rintro rfl
      exact hplain _ hb (by decide)
  obtain ⟨b, rest, rfl⟩ := List.exists_cons_of_ne_nil hne
  have hrest : space ∉ rest := fun hmem => (hword space (List.mem_cons_of_mem b hmem)).1 rfl
  have hlast := words_bare 14 (hword b List.mem_cons_self) hrest (Or.inl rfl)
  rw [List.append_nil] at hlast
  have hline : sourceLine (b :: rest) = 0x73 :: (ascii "ource" ++ space :: b :: rest) := rfl
  unfold tokenize maxArgs
  rw [hline, words_bare 15 (by decide) (by decide) (Or.inr rfl), words_space, hlast]
  rfl

/-- The line runs the script. -/
theorem dispatch_sourceLine (out : Outside ω) (source : Ctx ω → List Bytes → Option (Ctx ω × Action × Nat)) {sh : Ctx ω}
    (halias : sh.aliases.get (ascii "source") = none) :
    dispatchSingle out source sh ⟨0, sourceLine path⟩ = source sh [ascii "source", path] := by
  have htoken := tokenize_sourceLine hpath
  have hcmd : arg (tokenize (sourceLine path)) 0 = ascii "source" := by rw [htoken]; rfl
  have hassign : findAssignment (sourceLine path) = none := rfl
  have hexpand : expandAlias sh.aliases (sourceLine path) = sourceLine path := by
    unfold expandAlias
    rw [hcmd, halias]
  have hbuiltin : builtin? (ascii "source") = some .source := by rfl
  have hne : ¬ ascii "source" = [] := by decide
  have hline : ¬ sourceLine path = [] := List.cons_ne_nil _ _
  unfold dispatchSingle
  dsimp only
  rw [if_neg hline, hassign]
  dsimp only
  rw [hcmd, if_neg hne, hexpand]
  unfold dispatch
  dsimp only
  rw [hcmd, if_neg hne, hbuiltin, htoken]

end

/-! ### What the shell does -/

private theorem settle_congr {sh sh' : Ctx ω} (hhistory : sh.history = sh'.history) (hcwd : sh.cwd = sh'.cwd)
    (hpid : sh.pid = sh'.pid) : settle sh = settle sh' := by
  funext r
  obtain ⟨sub, action, code⟩ := r
  cases action <;> simp only [settle, Ctx.absorb, Ctx.moveTo, hhistory, hcwd, hpid]

private theorem settle_noted (sh : Ctx ω) (r : Ctx ω × Action × Nat) : settle sh (noted r) = settle sh r := by
  obtain ⟨sub, action, code⟩ := r
  cases action <;> rfl

private theorem runLines_settle (d : Dispatcher ω) (lines : List Bytes) (ctx : Ctx ω) (lastExit : Nat) :
    ((runLines d ctx lastExit lines).bind (settle ctx)).map Prod.fst = throughCd d { ctx with lastExit := lastExit } lines := by
  induction lines generalizing ctx lastExit with
  | nil => rfl
  | cons line rest ih =>
    unfold runLines throughCd runLine
    cases executeLine d line { ctx with lastExit := lastExit } with
    | none => rfl
    | some out =>
      obtain ⟨sub, action, code⟩ := out
      cases action with
      | exit c => rfl
      | cd path => rfl
      | cont =>
        have hsettle : settle ctx = settle (ctx.absorb sub) := settle_congr rfl rfl rfl
        have hrest := ih (ctx.absorb sub) code
        dsimp only
        rw [hsettle, hrest]
        rfl

section

variable {out : Outside ω} {sh : Ctx ω} {path script : Bytes} {world : ω}

private theorem enter_of_sourceLine (hpath : IsWord path) (halias : sh.aliases.get (ascii "source") = none)
    (source : Ctx ω → List Bytes → Option (Ctx ω × Action × Nat)) :
    enter (dispatchSingle out source) sh (sourceLine path) =
      ((source { sh with history := sh.history.push (sourceLine path) } [ascii "source", path]).bind
        (settle { sh with history := sh.history.push (sourceLine path) })).map Prod.fst := by
  have hlen : (sourceLine path).length < lineMax := by
    have hshort := hpath.2.1
    have hcmd : (ascii "source ").length = 7 := rfl
    unfold sourceLine lineMax
    rw [List.length_append]
    omega
  have hne : ¬ sourceLine path = [] := List.cons_ne_nil _ _
  unfold enter
  rw [if_neg hne]
  generalize hsh : ({ sh with history := sh.history.push (sourceLine path) } : Ctx ω) = sh'
  have halias' : sh'.aliases.get (ascii "source") = none := by
    rw [← hsh]
    exact halias
  have hnoted : settle sh' ∘ noted = settle sh' := funext fun r => settle_noted sh' r
  unfold runLine
  rw [executeLine_single (dispatchSingle_positionless out source) (sourceLine_single hpath) (sourceLine_free hpath) hlen,
    trim_sourceLine hpath, dispatch_sourceLine hpath out source halias', Option.bind_map, hnoted]

/-- A script is run from status 0 up to the first line that changes the directory. -/
theorem enter_sourceLine (hpath : IsWord path) (halias : sh.aliases.get (ascii "source") = none)
    (hread : readScript out (pathAsWords (resolve sh.cwd path)) sh.world = (world, some script)) (depth : Nat) :
    enter (shellDispatch out (depth + 1)) sh (sourceLine path) =
      throughCd (shellDispatch out depth)
        { sh with history := sh.history.push (sourceLine path), world := world, lastExit := 0 } (scriptLines script) := by
  have hword : arg [ascii "source", path] 1 ≠ [] := hpath.1
  have hrun := cmdSource_of_script (shellDispatch out depth) { sh with history := sh.history.push (sourceLine path) }
    hword hread
  have hsettle : settle { sh with history := sh.history.push (sourceLine path) } =
      settle { sh with history := sh.history.push (sourceLine path), world := world } := settle_congr rfl rfl rfl
  have hone := @enter_of_sourceLine _ out _ _ hpath halias (cmdSource out (shellDispatch out depth))
  rw [hrun, hsettle] at hone
  exact hone.trans (runLines_settle _ _ _ 0)

/-- No script is run at depth 0. -/
theorem enter_sourceLine_zero (hpath : IsWord path) (halias : sh.aliases.get (ascii "source") = none) :
    enter (shellDispatch out 0) sh (sourceLine path) = none :=
  enter_of_sourceLine hpath halias _

end

section

variable (out : Outside ω) (depth : Nat) {a b : Bytes}

/-- After one command, the context differs from the one before in what the shell takes over. -/
private theorem absorb_of_single (ha : Single a) (hfree : ExpansionFree a) (hlen : a.length < lineMax) {ctx sub : Ctx ω}
    {action : Action} {code : Nat} (h : executeLine (shellDispatch out depth) a ctx = some (sub, action, code)) :
    ({ ctx.absorb sub with lastExit := code } : Ctx ω) = sub := by
  rw [executeLine_single (shellDispatch_positionless out depth) ha hfree hlen] at h
  obtain ⟨r, hr, hnoted⟩ := Option.map_eq_some_iff.1 h
  obtain ⟨hhistory, hcwd, hpid⟩ := shellDispatch_frames out depth _ _ _ hr
  obtain ⟨sub', action', code'⟩ := r
  cases hnoted
  dsimp only at hhistory hcwd hpid ⊢
  unfold Ctx.absorb
  rw [← hhistory, ← hcwd, ← hpid]

/-- In `a ; b`, `b` is executed before the change of directory that `a` asks for. -/
theorem enter_pair (sh : Ctx ω) (ha : Single a) (hb : Single b)
    (hfreea : ExpansionFree a) (hfreeb : ExpansionFree b) (hlen : (a ++ semicolon :: b).length < lineMax) :
    enter (shellDispatch out depth) sh (a ++ semicolon :: b) =
      heldBack (shellDispatch out depth) { sh with history := sh.history.push (a ++ semicolon :: b) } a b := by
  have hne : a ++ semicolon :: b ≠ [] := List.append_ne_nil_of_right_ne_nil _ (List.cons_ne_nil _ _)
  have hlena : a.length < lineMax := by
    rw [List.length_append] at hlen
    omega
  unfold enter
  rw [if_neg hne]
  generalize ({ sh with history := sh.history.push (a ++ semicolon :: b) } : Ctx ω) = sh'
  unfold runLine heldBack
  rw [executeLine_pair (shellDispatch_positionless out depth) ha hb hfreea hfreeb hlen]
  cases hone : executeLine (shellDispatch out depth) a sh' with
  | none => rfl
  | some r =>
    obtain ⟨sub, action, code⟩ := r
    have hctx := absorb_of_single out depth ha hfreea hlena hone
    have hsettle : settle sh' = settle sub := by
      rw [← hctx]
      exact settle_congr rfl rfl rfl
    cases action with
    | exit c => rfl
    | cont | cd path =>
      dsimp only [Option.bind_some]
      rw [hctx, hsettle]
      unfold runLine
      cases executeLine (shellDispatch out depth) b sub with
      | none => rfl
      | some r' =>
        obtain ⟨sub', action', code'⟩ := r'
        cases action' <;> rfl

end

/-! ### When scripts and typing agree -/

/-- While the lines are typed, only the last one changes the directory. -/
def StaysUntilLast (d : Dispatcher ω) (sh : Ctx ω) : List Bytes → Prop
  | [] => True
  | [_] => True
  | line :: next :: rest =>
    ∀ r, runLine d { sh with history := sh.history.push line } line = some r →
      r.2 = false ∧ StaysUntilLast d r.1 (next :: rest)

private theorem enter_of_short (d : Dispatcher ω) (sh : Ctx ω) {line : Bytes} (hne : line ≠ [])
    (hlen : line.length < lineMax) :
    enter d sh (typed line) = (runLine d { sh with history := sh.history.push line } line).map Prod.fst := by
  have htyped : typed line = line := List.take_of_length_le (Nat.le_sub_one_of_lt hlen)
  rw [htyped]
  unfold enter
  rw [if_neg hne]

/-- Up to a change of directory at the end, the lines leave what they leave when they are typed. -/
private theorem throughCd_eq_typeLines {d : Dispatcher ω} (hd : d.Blind) {lines : List Bytes}
    (hlines : ∀ l ∈ lines, l ≠ [] ∧ bang ∉ l ∧ l.length < lineMax) {sh : Ctx ω} (h : History)
    (hstays : StaysUntilLast d sh lines) :
    (throughCd d { sh with history := h } lines).map Ctx.seen = (typeLines d sh lines).map Ctx.seen := by
  induction lines generalizing sh h with
  | nil => rfl
  | cons line rest ih =>
    obtain ⟨hne, hbang, hlen⟩ := hlines line List.mem_cons_self
    unfold throughCd typeLines
    have hquiet := runLine_blind hd h hbang sh
    have hnoted := runLine_blind hd (sh.history.push line) hbang sh
    rw [enter_of_short d sh hne hlen, hquiet]
    have hlast : rest = [] ∨ ∀ r, runLine d { sh with history := sh.history.push line } line = some r →
        r.2 = false ∧ StaysUntilLast d r.1 rest := by
      cases rest with
      | nil => exact Or.inl rfl
      | cons next rest => exact Or.inr hstays
    rw [hnoted] at hlast ⊢
    generalize runLine d sh line = found at hlast ⊢
    cases found with
    | none => rfl
    | some r =>
      obtain ⟨u, moved⟩ := r
      rcases hlast with rfl | hlast
      · cases moved <;> rfl
      · obtain ⟨hmoved, hrest⟩ := hlast _ rfl
        dsimp only at hmoved hrest
        cases hmoved
        exact ih (fun l hl => hlines l (List.mem_cons_of_mem line hl)) h hrest

private theorem ne_nil_of_mem_scriptLines {script l : Bytes} (hl : l ∈ scriptLines script) : l ≠ [] := by
  unfold scriptLines at hl
  have hkept := (Bool.and_eq_true_iff.1 (List.mem_filter.1 hl).2).1
  exact bne_iff_ne.1 hkept

/-- A script leaves what typing its lines leaves, if none before the last changes the directory, the status is 0 and no
line is longer than the editor holds. -/
theorem source_eq_typing {out : Outside ω} (hout : out.NoBang) {sh : Ctx ω} {path script : Bytes} {world : ω}
    (hpath : IsWord path) (halias : sh.aliases.get (ascii "source") = none)
    (hread : readScript out (pathAsWords (resolve sh.cwd path)) sh.world = (world, some script))
    (hlen : ∀ l ∈ scriptLines script, l.length < lineMax) (hstatus : sh.lastExit = 0) (depth : Nat)
    (hstays : StaysUntilLast (shellDispatch out depth) { sh with world := world } (scriptLines script)) :
    (enter (shellDispatch out (depth + 1)) sh (sourceLine path)).map Ctx.seen =
      (typeLines (shellDispatch out depth) { sh with world := world } (scriptLines script)).map Ctx.seen := by
  have hbang : bang ∉ script := not_bang_readScript hout (congrArg Prod.snd hread)
  have hlines : ∀ l ∈ scriptLines script, l ≠ [] ∧ bang ∉ l ∧ l.length < lineMax := fun l hl =>
    ⟨ne_nil_of_mem_scriptLines hl, not_bang_scriptLines hbang l hl, hlen l hl⟩
  have hthrough := throughCd_eq_typeLines (shellDispatch_blind hout depth) hlines
    (sh.history.push (sourceLine path)) hstays
  rw [enter_sourceLine hpath halias hread, ← hthrough, ← hstatus]

/-- `a ; b` leaves what entering `a` and then `b` leaves, if `a` does not change the directory. -/
theorem pair_eq_entering {out : Outside ω} (hout : out.NoBang) {sh : Ctx ω} {a b : Bytes} (ha : Single a) (hb : Single b)
    (hfreea : ExpansionFree a) (hfreeb : ExpansionFree b) (hlen : (a ++ semicolon :: b).length < lineMax) (depth : Nat)
    (hstays : StaysUntilLast (shellDispatch out depth) sh [a, b]) :
    (enter (shellDispatch out depth) sh (a ++ semicolon :: b)).map Ctx.seen =
      (typeLines (shellDispatch out depth) sh [a, b]).map Ctx.seen := by
  have hd := shellDispatch_blind hout depth
  have hne : ∀ {s : Bytes}, Single s → s ≠ [] := by
    rintro s ⟨-, -, hblank⟩ rfl
    exact hblank rfl
  have hlines : ∀ l ∈ [a, b], l ≠ [] ∧ bang ∉ l ∧ l.length < lineMax := by
    rw [List.length_append, List.length_cons] at hlen
    intro l hl
    rcases List.mem_cons.1 hl with rfl | hl
    · exact ⟨hne ha, hfreea.1, by omega⟩
    · rw [List.mem_singleton.1 hl]
      exact ⟨hne hb, hfreeb.1, by omega⟩
  have hthrough := throughCd_eq_typeLines hd hlines (sh.history.push (a ++ semicolon :: b)) hstays
  rw [enter_pair out depth sh ha hb hfreea hfreeb hlen, ← hthrough]
  have hquiet := runLine_blind hd (sh.history.push (a ++ semicolon :: b)) hfreea.1 sh
  have hnoted := runLine_blind hd (sh.history.push a) hfreea.1 sh
  have hmoved : ∀ r, runLine (shellDispatch out depth) { sh with history := sh.history.push (a ++ semicolon :: b) } a =
      some r → r.2 = false := by
    intro r hr
    rw [hquiet] at hr
    obtain ⟨r', hr', rfl⟩ := Option.map_eq_some_iff.1 hr
    rw [hr'] at hnoted
    exact (hstays _ hnoted).1
  generalize ({ sh with history := sh.history.push (a ++ semicolon :: b) } : Ctx ω) = sh' at hmoved ⊢
  unfold runLine at hmoved
  unfold heldBack throughCd
  conv => rhs; unfold runLine
  generalize executeLine (shellDispatch out depth) a sh' = found at hmoved ⊢
  cases found with
  | none => rfl
  | some r =>
    obtain ⟨sub, action, code⟩ := r
    cases action with
    | exit c => rfl
    | cd path => cases hmoved _ rfl
    | cont =>
      dsimp only [settle, Option.bind_some]
      unfold throughCd
      cases runLine (shellDispatch out depth) { sh'.absorb sub with lastExit := code } b with
      | none => rfl
      | some r' =>
        obtain ⟨u, moved⟩ := r'
        cases moved <;> rfl

/-- Other processes of which the VFS knows one file. -/
def oneFile (text : Bytes) : Outside Unit where
  exchange _ _ _ _ := ()
  attempt _ _ _ := ((), true)
  stat _ _ := ((), none)
  read _ _ offset := ((), .data text.length ((text.drop offset).take 40))

/-- Two assignments. -/
theorem source_eq_typing_two : (enter (shellDispatch (oneFile (ascii "Y=2\nX=1")) 1) (Ctx.start 5 ())
    (sourceLine (ascii "f"))).map Ctx.seen = (typeLines (shellDispatch (oneFile (ascii "Y=2\nX=1")) 0) (Ctx.start 5 ())
      (scriptLines (ascii "Y=2\nX=1"))).map Ctx.seen := by
  refine source_eq_typing (fun world path offset total bytes h => ?_) (by decide) (by decide +kernel) (by decide +kernel)
    (by decide) rfl 0 ?_
  · cases h
    exact fun hmem => absurd (List.mem_of_mem_drop (List.mem_of_mem_take hmem)) (by decide)
  · have hone : (runLine (shellDispatch (oneFile (ascii "Y=2\nX=1")) 0) { Ctx.start 5 () with
        history := (Ctx.start 5 ()).history.push (ascii "Y=2") } (ascii "Y=2")).all (!·.2) = true := by decide +kernel
    intro r hr
    have hstays := (Option.all_eq_true _ _).1 hone r hr
    exact ⟨by simpa using hstays, trivial⟩

private theorem not_leaves {out : Outside ω} {sh t : Ctx ω} {line : Bytes} (depth : Nat)
    (h : (enter (shellDispatch out depth) sh line).any (fun s => decide (s.seen ≠ t.seen)) = true) :
    ¬ Leaves out (fun d => enter d sh line) t := by
  rintro ⟨depth', s', hs', hseen⟩
  obtain ⟨s, hs, hne⟩ := (Option.any_eq_true _ _).1 h
  rw [enter_unique hs hs'] at hne
  exact of_decide_eq_true hne hseen

end Rost.Shell
