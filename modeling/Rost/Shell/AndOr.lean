import Rost.Shell.Splitting

/-!
# And-or lists

What a compound line is to mean: the command after `&&` (`||`) runs when the last command that was executed succeeded
(failed), the one after `;` always.  `execute_line` stops at the first operator whose command is not due and never takes
the line up again, and it sees only the parts that the splitter keeps of the first 255 bytes;
`executeLine_andOr_iff` says when this makes no difference.
-/

namespace Rost.Shell

open Vfs (Bytes ascii)

variable {ω : Type}

/-! ### The rule -/

/-- The command after the operator is due, when the last executed command returned `code`. -/
def Joiner.lets : Joiner → Nat → Bool
  | .seq, _ => true
  | .and, code => code == 0
  | .or, code => code != 0

/-- A dispatcher whose commands all return. -/
abbrev Commands (ω : Type) := Ctx ω → Slice → Ctx ω × Action × Nat

/-- The and-or rule: `due` says whether the next command runs, `code` is the status of the last executed one. -/
def andOrList (d : Commands ω) (ctx : Ctx ω) (final : Action) (code : Nat) (due : Bool) :
    List CompoundPart → Ctx ω × Action × Nat
  | [] => (ctx, final, code)
  | part :: rest =>
    if due then
      match d ctx part.cmd.trim with
      | (ctx, .exit c, code) => ({ ctx with lastExit := code }, .exit c, code)
      | (ctx, action, code) =>
        andOrList d { ctx with lastExit := code } (final.after action) code (part.joiner.lets code) rest
    else andOrList d ctx final code (part.joiner.lets code) rest

/-! ### What the executor does -/

/-- Run the parts up to the first operator after which the next command is not due. -/
def untilStop (d : Commands ω) (ctx : Ctx ω) (final : Action) (code : Nat) :
    List CompoundPart → Ctx ω × Action × Nat
  | [] => (ctx, final, code)
  | part :: rest =>
    match d ctx part.cmd.trim with
    | (ctx, .exit c, code) => ({ ctx with lastExit := code }, .exit c, code)
    | (ctx, action, code) =>
      if stops part.joiner code then ({ ctx with lastExit := code }, final.after action, code)
      else untilStop d { ctx with lastExit := code } (final.after action) code rest

private theorem executeParts_skip (d : Dispatcher ω) {p : Progress ω} (hskip : p.skip = true)
    (hstop : stops p.skipReason p.exitCode = true) (parts : List CompoundPart) :
    executeParts d p parts = some (p.ctx, p.finalAction, p.exitCode) := by
  induction parts with
  | nil => rfl
  | cons part rest ih =>
    unfold executeParts
    rw [hskip, hstop]
    exact ih

private theorem executeParts_eq (d : Commands ω) (ctx : Ctx ω) (final : Action) (code : Nat) (reason : Joiner)
    (parts : List CompoundPart) :
    executeParts (fun ctx s => some (d ctx s)) ⟨ctx, code, final, false, reason⟩ parts =
      some (untilStop d ctx final code parts) := by
  induction parts generalizing ctx final code reason with
  | nil => rfl
  | cons part rest ih =>
    unfold executeParts untilStop
    rw [Bool.false_and, if_neg Bool.false_ne_true]
    dsimp only
    generalize d ctx part.cmd.trim = out
    obtain ⟨ctx', action, code'⟩ := out
    cases hstop : stops part.joiner code' with
    | true =>
      cases action with
      | exit c => rfl
      | cont | cd path =>
        simp only [hstop, if_true]
        exact executeParts_skip _ rfl hstop rest
    | false =>
      cases action with
      | exit c => rfl
      | cont | cd path =>
        simp only [hstop, Bool.false_eq_true, if_false]
        exact ih _ _ _ _

/-! ### Where the rule and the executor agree -/

def Action.isExit : Action → Bool
  | .exit _ => true
  | _ => false

/-- The state after a command, in which its status is noted. -/
def settled (r : Ctx ω × Action × Nat) : Ctx ω := { r.1 with lastExit := r.2.2 }

/-- After the operator at which the executor stops, the line has no other kind of operator. -/
def straight (d : Commands ω) (ctx : Ctx ω) : List CompoundPart → Bool
  | [] => true
  | part :: rest =>
    let r := d ctx part.cmd.trim
    if r.2.1.isExit then true
    else if stops part.joiner r.2.2 then rest.dropLast.all fun q => q.joiner == part.joiner
    else straight d (settled r) rest

/-- The executor stops or the shell exits within these parts. -/
def halts (d : Commands ω) (ctx : Ctx ω) : List CompoundPart → Bool
  | [] => false
  | part :: rest =>
    let r := d ctx part.cmd.trim
    r.2.1.isExit || stops part.joiner r.2.2 || halts d (settled r) rest

private theorem untilStop_cons (d : Commands ω) (ctx : Ctx ω) (final : Action) (code : Nat) (part : CompoundPart)
    (rest : List CompoundPart) :
    untilStop d ctx final code (part :: rest) =
      let r := d ctx part.cmd.trim
      if r.2.1.isExit then ((settled r), r.2.1, r.2.2)
      else if stops part.joiner r.2.2 then ((settled r), final.after r.2.1, r.2.2)
      else untilStop d (settled r) (final.after r.2.1) r.2.2 rest := by
  conv => lhs; unfold untilStop
  dsimp only
  generalize d ctx part.cmd.trim = r
  obtain ⟨ctx', action, code'⟩ := r
  cases action <;> rfl

private theorem andOrList_cons (d : Commands ω) (ctx : Ctx ω) (final : Action) (code : Nat) (part : CompoundPart)
    (rest : List CompoundPart) :
    andOrList d ctx final code true (part :: rest) =
      let r := d ctx part.cmd.trim
      if r.2.1.isExit then ((settled r), r.2.1, r.2.2)
      else andOrList d (settled r) (final.after r.2.1) r.2.2 (part.joiner.lets r.2.2) rest := by
  conv => lhs; unfold andOrList
  rw [if_pos rfl]
  dsimp only
  generalize d ctx part.cmd.trim = r
  obtain ⟨ctx', action, code'⟩ := r
  cases action <;> rfl

private theorem andOrList_cons_not_due (d : Commands ω) (ctx : Ctx ω) (final : Action) (code : Nat)
    (part : CompoundPart) (rest : List CompoundPart) :
    andOrList d ctx final code false (part :: rest) =
      andOrList d ctx final code (part.joiner.lets code) rest := by
  conv => lhs; unfold andOrList
  rw [if_neg Bool.false_ne_true]

theorem lets_eq_not_stops (j : Joiner) (code : Nat) : j.lets code = !stops j code := by
  cases j <;> simp [Joiner.lets, stops, bne]

/-- Nothing more is due while all operators are the one that stopped the list. -/
private theorem andOrList_not_due (d : Commands ω) (ctx : Ctx ω) (final : Action) {code : Nat} {j : Joiner}
    (hstop : stops j code = true) {rest : List CompoundPart} (hall : ∀ q ∈ rest.dropLast, q.joiner = j) :
    andOrList d ctx final code false rest = (ctx, final, code) := by
  induction rest with
  | nil => rfl
  | cons part rest ih =>
    rw [andOrList_cons_not_due]
    cases rest with
    | nil => rfl
    | cons q rest =>
      rw [List.dropLast_cons_cons] at hall
      have hj : part.joiner = j := hall part List.mem_cons_self
      rw [lets_eq_not_stops, hj, hstop]
      exact ih fun q' hq' => hall q' (List.mem_cons_of_mem _ hq')

/-! ### The log of commands -/

/-- A dispatcher that notes, beside what the commands do, which ones were executed. -/
def logged (d : Commands ω) : Commands (List Slice × ω) := fun ctx s =>
  let r := d { ctx with world := ctx.world.2 } s
  ({ r.1 with world := (ctx.world.1 ++ [s], r.1.world) }, r.2)

section

variable (d : Commands ω) (ctx : Ctx (List Slice × ω)) (final : Action) (code : Nat)

private theorem log_logged (s : Slice) : (logged d ctx s).1.world.1 = ctx.world.1 ++ [s] := rfl

private theorem log_extends (due : Bool) (parts : List CompoundPart) :
    ctx.world.1 <+: (andOrList (logged d) ctx final code due parts).1.world.1 := by
  induction parts generalizing ctx final code due with
  | nil => exact List.prefix_rfl
  | cons part rest ih =>
    cases due with
    | false =>
      rw [andOrList_cons_not_due]
      exact ih ..
    | true =>
      rw [andOrList_cons]
      have hstep : ctx.world.1 <+: (logged d ctx part.cmd.trim).1.world.1 := ⟨_, rfl⟩
      dsimp only
      split
      · exact hstep
      · exact hstep.trans (ih (settled (logged d ctx part.cmd.trim)) ..)

/-- Another kind of operator makes one more command due. -/
private theorem log_grows {j : Joiner} (hstop : stops j code = true) {rest : List CompoundPart}
    (hother : ∃ q ∈ rest.dropLast, q.joiner ≠ j) :
    ctx.world.1.length < (andOrList (logged d) ctx final code false rest).1.world.1.length := by
  induction rest with
  | nil =>
    obtain ⟨q, hq, -⟩ := hother
    cases hq
  | cons part rest ih =>
    rw [andOrList_cons_not_due]
    cases rest with
    | nil =>
      obtain ⟨q, hq, -⟩ := hother
      cases hq
    | cons q rest =>
      rw [List.dropLast_cons_cons] at hother
      cases hlets : part.joiner.lets code with
      | false =>
        -- the operator stops at this status too, so it is the same one
        have hj : part.joiner = j := by
          rw [lets_eq_not_stops, Bool.not_eq_false'] at hlets
          cases hp : part.joiner <;> cases hj : j <;> rw [hp] at hlets <;> rw [hj] at hstop <;>
            simp [stops] at hlets hstop ⊢ <;> omega
        obtain ⟨q', hq', hne⟩ := hother
        rcases List.mem_cons.1 hq' with rfl | hq'
        · exact absurd hj hne
        · exact ih ⟨q', hq', hne⟩
      | true =>
        have hlen : ∀ {l : List Slice} {s : Slice}, ctx.world.1 ++ [s] <+: l → ctx.world.1.length < l.length := by
          intro l s hpre
          have := hpre.length_le
          rw [List.length_append, List.length_singleton] at this
          omega
        rw [andOrList_cons]
        dsimp only
        split
        · exact hlen List.prefix_rfl
        · exact hlen (log_extends d (settled (logged d ctx q.cmd.trim)) ..)

/-- The executor follows the rule over a list of parts exactly when the list is straight. -/
private theorem untilStop_eq_iff (parts : List CompoundPart) :
    untilStop (logged d) ctx final code parts = andOrList (logged d) ctx final code true parts ↔
      straight (logged d) ctx parts = true := by
  induction parts generalizing ctx final code with
  | nil => exact ⟨fun _ => rfl, fun _ => rfl⟩
  | cons part rest ih =>
    rw [untilStop_cons, andOrList_cons]
    unfold straight
    dsimp only
    generalize logged d ctx part.cmd.trim = r
    cases hexit : r.2.1.isExit with
    | true => simp
    | false =>
      simp only [Bool.false_eq_true, if_false]
      rw [lets_eq_not_stops]
      cases hstop : stops part.joiner r.2.2 with
      | false =>
        simp only [Bool.false_eq_true, if_false, Bool.not_false]
        exact ih ..
      | true =>
        simp only [if_true, Bool.not_true]
        constructor
        · intro heq
          rw [List.all_eq_true]
          intro q hq
          by_contra hne
          have := log_grows d (settled r) (final.after r.2.1) r.2.2 hstop
            ⟨q, hq, by simpa using hne⟩
          rw [← heq] at this
          exact absurd this (Nat.lt_irrefl _)
        · intro hall
          rw [andOrList_not_due _ _ _ hstop]
          intro q hq
          exact eq_of_beq (List.all_eq_true.1 hall q hq)

/-- What follows the stop does not matter to the executor. -/
private theorem untilStop_append_of_halts {parts : List CompoundPart} (hhalts : halts (logged d) ctx parts = true)
    (more : List CompoundPart) :
    untilStop (logged d) ctx final code (parts ++ more) = untilStop (logged d) ctx final code parts := by
  induction parts generalizing ctx final code with
  | nil => cases hhalts
  | cons part rest ih =>
    rw [List.cons_append, untilStop_cons, untilStop_cons]
    unfold halts at hhalts
    dsimp only at hhalts ⊢
    generalize logged d ctx part.cmd.trim = r at hhalts
    cases hexit : r.2.1.isExit with
    | true => rfl
    | false =>
      cases hstop : stops part.joiner r.2.2 with
      | true => rfl
      | false =>
        rw [hexit, hstop, Bool.false_or, Bool.false_or] at hhalts
        simp only [Bool.false_eq_true, if_false]
        exact ih _ _ _ hhalts

/-- Parts without a stop are all run, by the executor and by the rule. -/
private theorem run_append_of_not_halts {parts : List CompoundPart} (hhalts : halts (logged d) ctx parts = false) :
    ∃ ctx' final' code', ctx'.world.1 = ctx.world.1 ++ parts.map (fun part => part.cmd.trim) ∧
      (∀ more, untilStop (logged d) ctx final code (parts ++ more) = untilStop (logged d) ctx' final' code' more) ∧
      (∀ more, andOrList (logged d) ctx final code true (parts ++ more) =
        andOrList (logged d) ctx' final' code' true more) ∧
      ∀ more, straight (logged d) ctx (parts ++ more) = straight (logged d) ctx' more := by
  induction parts generalizing ctx final code with
  | nil => exact ⟨ctx, final, code, by simp, fun _ => rfl, fun _ => rfl, fun _ => rfl⟩
  | cons part rest ih =>
    unfold halts at hhalts
    have hlog := log_logged d ctx part.cmd.trim
    simp only [List.cons_append, untilStop_cons, andOrList_cons, straight]
    dsimp only at hhalts ⊢
    generalize logged d ctx part.cmd.trim = r at hhalts hlog
    rw [Bool.or_eq_false_iff, Bool.or_eq_false_iff] at hhalts
    obtain ⟨⟨hexit, hstop⟩, hrest⟩ := hhalts
    obtain ⟨ctx', final', code', hworld, huntil, hrule, hstraight⟩ :=
      ih (settled r) (final.after r.2.1) r.2.2 hrest
    refine ⟨ctx', final', code', ?_, ?_, ?_, ?_⟩
    · have hsettled : (settled r).world.1 = r.1.world.1 := rfl
      rw [hworld, hsettled, hlog]
      simp
    · intro more
      rw [hexit, hstop]
      simp only [Bool.false_eq_true, if_false]
      exact huntil more
    · intro more
      rw [hexit, lets_eq_not_stops, hstop]
      simp only [Bool.false_eq_true, if_false, Bool.not_false]
      exact hrule more
    · intro more
      rw [hexit, hstop]
      simp only [Bool.false_eq_true, if_false]
      exact hstraight more

/-- With fewer operators after the stop, a straight list stays straight. -/
private theorem straight_of_halts {parts more less : List CompoundPart} (hhalts : halts (logged d) ctx parts = true)
    (hsub : ∀ before, ∀ q ∈ (before ++ less).dropLast, q ∈ (before ++ more).dropLast)
    (hstraight : straight (logged d) ctx (parts ++ more) = true) : straight (logged d) ctx (parts ++ less) = true := by
  induction parts generalizing ctx with
  | nil => cases hhalts
  | cons part rest ih =>
    unfold halts at hhalts
    rw [List.cons_append] at hstraight ⊢
    unfold straight at hstraight ⊢
    dsimp only at hhalts hstraight ⊢
    generalize logged d ctx part.cmd.trim = r at hhalts hstraight
    cases hexit : r.2.1.isExit with
    | true => rfl
    | false =>
      cases hstop : stops part.joiner r.2.2 with
      | true =>
        rw [hexit, hstop] at hstraight
        simp only [Bool.false_eq_true, if_false, if_true] at hstraight ⊢
        rw [List.all_eq_true] at hstraight ⊢
        intro q hq
        exact hstraight q (hsub rest q hq)
      | false =>
        rw [hexit, hstop] at hstraight
        rw [hexit, hstop, Bool.false_or, Bool.false_or] at hhalts
        simp only [Bool.false_eq_true, if_false] at hstraight ⊢
        exact ih _ hhalts hstraight

/-- A command missing at the end makes the list of operators before the last command no longer. -/
private theorem mem_dropLast_of_mem {tail tail' : List CompoundPart} (hle : tail'.length ≤ 1)
    (hne : tail' ≠ [] → tail ≠ []) (before : List CompoundPart) :
    ∀ q ∈ (before ++ tail').dropLast, q ∈ (before ++ tail).dropLast := by
  intro q hq
  by_cases htail : tail = []
  · have htail' : tail' = [] := by
      by_contra h
      exact hne h htail
    rw [htail'] at hq
    rw [htail]
    exact hq
  · have hbefore : q ∈ before := by
      cases tail' with
      | nil =>
        rw [List.append_nil] at hq
        exact (List.dropLast_sublist before).subset hq
      | cons c cs =>
        have hcs : cs = [] := List.length_eq_zero_iff.1 (by simpa using hle)
        rw [hcs, List.dropLast_concat] at hq
        exact hq
    rw [List.dropLast_append_of_ne_nil htail]
    exact List.mem_append_left _ hbefore

private theorem take_append_drop_append (parts more : List CompoundPart) :
    parts ++ more = parts.take 7 ++ (parts.drop 7 ++ more) := by
  rw [← List.append_assoc, List.take_append_drop]

/-- If the first seven parts halt the executor, it does not come to what was left out. -/
private theorem kept_iff_of_halts {parts tail tail' : List CompoundPart} (hle : tail'.length ≤ 1)
    (hne : tail' ≠ [] → tail ≠ []) (hhalts : halts (logged d) ctx (parts.take 7) = true) :
    untilStop (logged d) ctx final code (parts.take 7 ++ tail') =
        andOrList (logged d) ctx final code true (parts ++ tail) ↔
      andOrList (logged d) ctx final code true (parts ++ tail') =
          andOrList (logged d) ctx final code true (parts ++ tail) ∧
        straight (logged d) ctx (parts ++ tail') = true := by
  have hsame : ∀ more, untilStop (logged d) ctx final code (parts.take 7 ++ more) =
      untilStop (logged d) ctx final code (parts.take 7) :=
    fun more => untilStop_append_of_halts d ctx final code hhalts more
  have hwhole : untilStop (logged d) ctx final code (parts ++ tail') =
      untilStop (logged d) ctx final code (parts.take 7 ++ tail') := by
    rw [take_append_drop_append, hsame, hsame]
  constructor
  · intro heq
    have hfull : straight (logged d) ctx (parts ++ tail) = true := by
      rw [← untilStop_eq_iff d ctx final code, ← heq, take_append_drop_append, hsame, hsame]
    have hkept : straight (logged d) ctx (parts ++ tail') = true := by
      rw [take_append_drop_append] at hfull ⊢
      apply straight_of_halts d ctx hhalts _ hfull
      intro before
      rw [← List.append_assoc, ← List.append_assoc]
      exact mem_dropLast_of_mem hle hne _
    refine ⟨?_, hkept⟩
    rw [← (untilStop_eq_iff d ctx final code _).2 hkept, hwhole, heq]
  · rintro ⟨heq, hkept⟩
    rw [← heq, ← (untilStop_eq_iff d ctx final code _).2 hkept, hwhole]

/-- If there are more, and nothing halts the executor before, it comes to the last part where the rule comes to the
eighth. -/
private theorem not_kept_of_long {parts tail tail' : List CompoundPart} (hle : tail'.length ≤ 1)
    (hdistinct : ∀ p ∈ parts, ∀ c ∈ tail', p.cmd.trim ≠ c.cmd.trim) (hhalts : halts (logged d) ctx (parts.take 7) = false)
    (hlong : 7 < parts.length) : untilStop (logged d) ctx final code (parts.take 7 ++ tail') ≠
      andOrList (logged d) ctx final code true (parts ++ tail) := by
  obtain ⟨ctx', final', code', hworld, huntil, hrule, -⟩ := run_append_of_not_halts d ctx final code hhalts
  intro heq
  rw [take_append_drop_append parts tail, huntil, hrule] at heq
  obtain ⟨p, rest, hdrop⟩ : ∃ p rest, parts.drop 7 = p :: rest := by
    cases hdrop : parts.drop 7 with
    | nil =>
      have := congrArg List.length hdrop
      rw [List.length_drop, List.length_nil] at this
      omega
    | cons p rest => exact ⟨p, rest, rfl⟩
  have hp : p ∈ parts := List.mem_of_mem_drop (by rw [hdrop]; exact List.mem_cons_self)
  -- the rule runs the eighth part
  have hran : ctx'.world.1 ++ [p.cmd.trim] <+:
      (andOrList (logged d) ctx' final' code' true (parts.drop 7 ++ tail)).1.world.1 := by
    rw [hdrop, List.cons_append, andOrList_cons]
    dsimp only
    split
    · exact List.prefix_rfl
    · exact log_extends d (settled (logged d ctx' p.cmd.trim)) ..
  rw [← heq] at hran
  cases tail' with
  | nil =>
    have := hran.length_le
    rw [List.length_append, List.length_singleton] at this
    exact absurd this (by show ¬ _ + 1 ≤ ctx'.world.1.length; omega)
  | cons c cs =>
    have hcs : cs = [] := List.length_eq_zero_iff.1 (by simpa using hle)
    have hlast : (untilStop (logged d) ctx' final' code' (c :: cs)).1.world.1 = ctx'.world.1 ++ [c.cmd.trim] := by
      rw [hcs, untilStop_cons]
      dsimp only
      split
      · rfl
      · split <;> rfl
    rw [hlast] at hran
    have hsame : p.cmd.trim = c.cmd.trim := by
      have := hran.eq_of_length (by simp)
      simpa using this
    exact hdistinct p hp c List.mem_cons_self hsame

/-- If there are no more, and nothing halts the executor before the last part, the line is straight. -/
private theorem straight_of_short {parts tail' : List CompoundPart} (hle : tail'.length ≤ 1)
    (hhalts : halts (logged d) ctx (parts.take 7) = false) (hshort : parts.length ≤ 7) :
    straight (logged d) ctx (parts ++ tail') = true := by
  obtain ⟨ctx', -, -, -, -, -, hstraight⟩ := run_append_of_not_halts d ctx .cont 0 hhalts
  rw [take_append_drop_append, hstraight, List.drop_of_length_le hshort, List.nil_append]
  cases tail' with
  | nil => rfl
  | cons c cs =>
    have hcs : cs = [] := List.length_eq_zero_iff.1 (by simpa using hle)
    rw [hcs]
    unfold straight
    dsimp only
    split
    · rfl
    · split <;> rfl

/-- The executor, given the first seven of the parts `parts` and what is left of the line, follows the rule for the line
exactly if the parts prescribe what the line prescribes, are straight, and are not more than seven before a stop. -/
private theorem kept_iff {parts tail tail' : List CompoundPart} (hle : tail'.length ≤ 1)
    (hne : tail' ≠ [] → tail ≠ []) (hdistinct : ∀ p ∈ parts, ∀ c ∈ tail', p.cmd.trim ≠ c.cmd.trim) :
    untilStop (logged d) ctx final code (parts.take 7 ++ tail') =
        andOrList (logged d) ctx final code true (parts ++ tail) ↔
      andOrList (logged d) ctx final code true (parts ++ tail') =
          andOrList (logged d) ctx final code true (parts ++ tail) ∧
        straight (logged d) ctx (parts ++ tail') = true ∧
        (parts.length ≤ 7 ∨ halts (logged d) ctx (parts.take 7) = true) := by
  cases hhalts : halts (logged d) ctx (parts.take 7) with
  | true =>
    rw [kept_iff_of_halts d ctx final code hle hne hhalts]
    exact and_congr_right fun _ => (and_iff_left (Or.inr rfl)).symm
  | false =>
    rcases Nat.lt_or_ge 7 parts.length with hlong | hshort
    · refine iff_of_false (not_kept_of_long d ctx final code hle hdistinct hhalts hlong) ?_
      rintro ⟨-, -, hlen | hhalt⟩
      · omega
      · cases hhalt
    · have hkept := straight_of_short d ctx hle hhalts hshort
      rw [List.take_of_length_le hshort, (untilStop_eq_iff d ctx final code _).2 hkept]
      exact ⟨fun heq => ⟨heq, hkept, Or.inl hshort⟩, fun h => h.1⟩

/-- Without expansions, the line that is executed is the line that was entered, cut to 255 bytes. -/
private theorem executeLine_of_free {line : Bytes} (hfree : ExpansionFree line) (hquotes : Unquoted line) :
    executeLine (fun ctx s => some (logged d ctx s)) line ctx =
      some (untilStop (logged d) ctx .cont ctx.lastExit
        ((pieces 0 0 [] (line.take (lineMax - 1))).1.take 7 ++
          lastPart (pieces 0 0 [] (line.take (lineMax - 1))).2)) := by
  obtain ⟨hbang, hdollar, htilde⟩ := hfree
  have hcut : Unquoted (line.take (lineMax - 1)) :=
    ⟨fun h => hquotes.1 (List.mem_of_mem_take h), fun h => hquotes.2 (List.mem_of_mem_take h)⟩
  unfold executeLine
  rw [expandHistory_of_plain _ hbang]
  dsimp only [Option.getD_none]
  rw [expandVars_of_plain _ _ _ hdollar htilde, splitCompound_of_unquoted hcut]
  exact executeParts_eq _ _ _ _ _ _

private theorem length_lastPart_le (s : Slice) : (lastPart s).length ≤ 1 := by
  unfold lastPart
  split
  · exact Nat.zero_le 1
  · exact Nat.le_refl 1

end

/-- `execute_line` follows the rule for the line `c₁ op₁ c₂ op₂ … last` exactly if the rule prescribes nothing else for
the first 255 bytes of it, in these no operator of another kind follows the one at which the executor stops, and they
hold at most seven operators or the executor stops within the first seven commands. -/
theorem executeLine_andOr_iff (d : Commands ω) (ctx : Ctx (List Slice × ω)) {cs : List (Bytes × Joiner)} {last : Bytes}
    (hform : WellFormed cs last) (hfree : ExpansionFree (render cs last)) (hquotes : Unquoted (render cs last)) :
    executeLine (fun ctx s => some (logged d ctx s)) (render cs last) ctx =
        some (andOrList (logged d) ctx .cont ctx.lastExit true (located 0 cs last)) ↔
      let cut := (render cs last).take (lineMax - 1)
      andOrList (logged d) ctx .cont ctx.lastExit true (commandsOf cut) =
          andOrList (logged d) ctx .cont ctx.lastExit true (located 0 cs last) ∧
        straight (logged d) ctx (commandsOf cut) = true ∧
        (operators cut ≤ 7 ∨ halts (logged d) ctx ((commandsOf cut).take 7) = true) := by
  generalize hline : render cs last = line at *
  have hwhole := commandsOf_render hform
  rw [hline] at hwhole
  rw [executeLine_of_free d ctx hfree hquotes, Option.some.injEq, ← hwhole]
  obtain ⟨more, hmore, hlast⟩ := pieces_append (line.take (lineMax - 1)) (line.drop (lineMax - 1)) 0 0 []
  rw [List.take_append_drop] at hmore hlast
  dsimp only
  generalize line.take (lineMax - 1) = cut at *
  have hdistinct := trim_ne_lastPart cut 0 0 []
  unfold commandsOf operators
  rw [hmore, List.append_assoc, kept_iff d ctx .cont ctx.lastExit (length_lastPart_le _) hlast hdistinct]
  rcases Nat.lt_or_ge 7 (pieces 0 0 [] cut).1.length with hlong | hshort
  · rw [List.take_append_of_le_length (Nat.le_of_lt hlong)]
  · simp only [hshort, true_or]

/-! ### Runs -/

/-- A shell in which `false` fails and every other command succeeds. -/
def booleans : Commands Unit := fun ctx s => (ctx, .cont, if s.bytes = ascii "false" then 1 else 0)

theorem executeLine_andOr_iff_two :
    executeLine (fun ctx s => some (logged booleans ctx s)) (ascii "false||pwd") (Ctx.start 5 ([], ())) =
        some (andOrList (logged booleans) (Ctx.start 5 ([], ())) .cont 0 true
          (located 0 [(ascii "false", .or)] (ascii "pwd"))) := by
  have hform : WellFormed [(ascii "false", .or)] (ascii "pwd") := by decide
  have hfree : ExpansionFree (render [(ascii "false", .or)] (ascii "pwd")) := by decide
  have hquotes : Unquoted (render [(ascii "false", .or)] (ascii "pwd")) := by decide
  have hcut : (render [(ascii "false", .or)] (ascii "pwd")).take (lineMax - 1) =
      render [(ascii "false", .or)] (ascii "pwd") := by decide
  apply (executeLine_andOr_iff booleans (Ctx.start 5 ([], ())) hform hfree hquotes).2
  dsimp only
  rw [hcut, commandsOf_render hform]
  exact ⟨rfl, by decide, Or.inl (by decide)⟩

/-- In `false && true ; pwd` the last command is not executed. -/
theorem executeLine_drops_command :
    WellFormed [(ascii "false ", .and), (ascii " true ", .seq)] (ascii " pwd") ∧
      ExpansionFree (ascii "false && true ; pwd") ∧ Unquoted (ascii "false && true ; pwd") ∧
      render [(ascii "false ", .and), (ascii " true ", .seq)] (ascii " pwd") = ascii "false && true ; pwd" ∧
      executeLine (fun ctx s => some (logged booleans ctx s)) (ascii "false && true ; pwd") (Ctx.start 5 ([], ())) ≠
        some (andOrList (logged booleans) (Ctx.start 5 ([], ())) .cont 0 true
          (located 0 [(ascii "false ", .and), (ascii " true ", .seq)] (ascii " pwd"))) := by
  refine ⟨by decide, by decide, by decide, by decide, ?_⟩
  intro heq
  have hlog := congrArg (Option.map fun r => r.1.world.1.length) heq
  revert hlog
  decide

end Rost.Shell
