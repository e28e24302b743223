import Mathlib.Data.List.DropRight
import Rost.Shell.Compound

/-!
# Commands and operators of a line

A line `c₁ op₁ c₂ op₂ … cₙ` without quotes is put together by `render`, and `commandsOf` takes it apart again
(`commandsOf_render`).  The splitter of the shell returns the first seven of the commands that end at an operator, and
the last one (`splitCompound_of_unquoted`).
-/

namespace Rost.Shell

open Vfs (Bytes ascii)

/-! ### Taking a line apart -/

/-- The parts of a line without quotes that end at an operator, and what follows the last operator. -/
def pieces (skip start : Nat) (seg : Bytes) : Bytes → List CompoundPart × Slice
  | [] => ([], ⟨start, seg⟩)
  | b :: rest =>
    if 0 < skip then pieces (skip - 1) start seg rest
    else
      match joinerAt b rest with
      | some j =>
        (⟨⟨start, seg⟩, j⟩ :: (pieces (j.width - 1) (start + seg.length + j.width) [] rest).1,
          (pieces (j.width - 1) (start + seg.length + j.width) [] rest).2)
      | none => pieces 0 start (seg ++ [b]) rest

/-- The last command of a line, unless nothing but blanks follows the last operator. -/
def lastPart (s : Slice) : List CompoundPart := if s.trim.bytes = [] then [] else [⟨s.trim, .seq⟩]

/-- All commands of a line without quotes, with the operators after them. -/
def commandsOf (line : Bytes) : List CompoundPart := (pieces 0 0 [] line).1 ++ lastPart (pieces 0 0 [] line).2

/-- The number of operators of a line without quotes. -/
def operators (line : Bytes) : Nat := (pieces 0 0 [] line).1.length

/-- No quote stands in the line. -/
def Unquoted (line : Bytes) : Prop := dquote ∉ line ∧ squote ∉ line

instance (line : Bytes) : Decidable (Unquoted line) := inferInstanceAs (Decidable (_ ∧ _))

private theorem length_pushPart_le {out : List CompoundPart} (part : CompoundPart) (hlen : out.length ≤ 7) :
    (pushPart out part).length ≤ 7 := by
  unfold pushPart
  split
  · rw [List.length_append, List.length_singleton]
    omega
  · exact hlen

private theorem splitLoop_eq {input : Bytes} (hquotes : Unquoted input) (skip start : Nat) (seg : Bytes)
    {out : List CompoundPart} (hlen : out.length ≤ 7) :
    splitLoop none skip start seg out input =
      (out ++ (pieces skip start seg input).1.take (7 - out.length), (pieces skip start seg input).2) := by
  induction input generalizing skip start seg out with
  | nil =>
    unfold splitLoop pieces
    rw [List.take_nil, List.append_nil]
  | cons b rest ih =>
    obtain ⟨hd, hs⟩ := hquotes
    rw [List.mem_cons, not_or] at hd hs
    have hrest : Unquoted rest := ⟨hd.2, hs.2⟩
    have hb : ¬ (b = dquote ∨ b = squote) := by
      rintro (h | h)
      · exact hd.1 h.symm
      · exact hs.1 h.symm
    unfold splitLoop pieces
    split
    · exact ih hrest _ _ _ hlen
    · cases hjoin : joinerAt b rest with
      | some j =>
        dsimp only
        rw [ih hrest _ _ _ (length_pushPart_le ⟨⟨start, seg⟩, j⟩ hlen)]
        rcases Nat.lt_or_ge out.length 7 with hlt | hge
        · have hone : pushPart out ⟨⟨start, seg⟩, j⟩ = out ++ [⟨⟨start, seg⟩, j⟩] := if_pos hlt
          have hroom : 7 - out.length = (7 - (out.length + 1)) + 1 := by omega
          rw [hone, List.append_assoc, List.length_append, List.length_singleton, hroom, List.take_succ_cons]
          rfl
        · have hnone : pushPart out ⟨⟨start, seg⟩, j⟩ = out := if_neg (by omega)
          have hroom : 7 - out.length = 0 := by omega
          rw [hnone, hroom, List.take_zero, List.take_zero]
      | none => exact ih hrest _ _ _ hlen

/-- The splitter keeps seven of the parts that end at an operator, and the last part. -/
theorem splitCompound_of_unquoted {line : Bytes} (hquotes : Unquoted line) :
    splitCompound line = (pieces 0 0 [] line).1.take 7 ++ lastPart (pieces 0 0 [] line).2 := by
  unfold splitCompound lastPart
  have hempty : ([] : List CompoundPart).length ≤ 7 := Nat.zero_le _
  rw [splitLoop_eq hquotes 0 0 [] hempty]
  dsimp only
  rw [List.nil_append, List.length_nil, Nat.sub_zero]
  split
  · rw [List.append_nil]
  · rw [if_pos (by rw [List.length_take]; omega)]

/-! ### A line that is cut -/

theorem trim_eq_nil_iff {s : Bytes} : trim s = [] ↔ ∀ b ∈ s, isBlank b = true := by
  unfold trim
  rw [List.reverse_eq_nil_iff, List.dropWhile_eq_nil_iff]
  constructor
  · intro h b hb
    have hsplit := List.takeWhile_append_dropWhile (p := isBlank) (l := s)
    rw [← hsplit] at hb
    rcases List.mem_append.1 hb with hb | hb
    · exact List.mem_takeWhile_imp hb
    · exact h b (List.mem_reverse.2 hb)
  · intro h b hb
    exact h b ((List.dropWhile_suffix isBlank).subset (List.mem_reverse.1 hb))

private theorem lastPart_ne_nil {start : Nat} {seg : Bytes} (h : trim seg ≠ []) : lastPart ⟨start, seg⟩ ≠ [] := by
  have hcons : lastPart ⟨start, seg⟩ = [⟨(Slice.mk start seg).trim, .seq⟩] := if_neg h
  rw [hcons]
  exact List.cons_ne_nil _ _

/-- A segment that is not blank becomes a command, whatever follows. -/
private theorem commands_of_seg (input : Bytes) (skip start : Nat) {seg : Bytes} (h : trim seg ≠ []) :
    (pieces skip start seg input).1 ++ lastPart (pieces skip start seg input).2 ≠ [] := by
  induction input generalizing skip start seg with
  | nil =>
    unfold pieces
    rw [List.nil_append]
    exact lastPart_ne_nil h
  | cons b rest ih =>
    unfold pieces
    split
    · exact ih _ _ h
    · split
      · exact List.cons_ne_nil _ _
      · apply ih
        intro hblank
        rw [trim_eq_nil_iff] at hblank
        apply h
        rw [trim_eq_nil_iff]
        intro c hc
        exact hblank c (List.mem_append_left _ hc)

/-- What stands after the place where a line is cut adds commands, and extends the one that was cut. -/
theorem pieces_append (x y : Bytes) (skip start : Nat) (seg : Bytes) :
    ∃ more, (pieces skip start seg (x ++ y)).1 = (pieces skip start seg x).1 ++ more ∧
      (lastPart (pieces skip start seg x).2 ≠ [] →
        more ++ lastPart (pieces skip start seg (x ++ y)).2 ≠ []) := by
  induction x generalizing skip start seg with
  | nil =>
    refine ⟨(pieces skip start seg y).1, rfl, ?_⟩
    intro hlast
    apply commands_of_seg
    intro hblank
    apply hlast
    unfold pieces lastPart
    exact if_pos hblank
  | cons b rest ih =>
    rw [List.cons_append]
    unfold pieces
    split
    · exact ih ..
    · cases rest with
      | nil =>
        -- at the cut, the second byte of an operator may be missing
        rw [List.nil_append]
        cases hjoin : joinerAt b [] with
        | some j =>
          have hseq : b = semicolon := by
            unfold joinerAt at hjoin
            split at hjoin
            · assumption
            · simp at hjoin
          have hj : j = .seq := by
            unfold joinerAt at hjoin
            rw [if_pos hseq] at hjoin
            exact (Option.some.inj hjoin).symm
          have hjoin' : joinerAt b y = some .seq := if_pos hseq
          rw [hjoin', hj]
          refine ⟨(pieces (Joiner.seq.width - 1) (start + seg.length + Joiner.seq.width) [] y).1, rfl, ?_⟩
          intro hlast
          exfalso
          apply hlast
          unfold pieces lastPart
          exact if_pos rfl
        | none =>
          dsimp only
          refine ⟨_, (List.nil_append _).symm, ?_⟩
          intro hlast
          have hseg : trim (seg ++ [b]) ≠ [] := by
            intro hblank
            apply hlast
            unfold pieces lastPart
            exact if_pos hblank
          cases joinerAt b y with
          | some j => exact List.cons_ne_nil _ _
          | none => exact commands_of_seg y 0 start hseg
      | cons c rest =>
        have hjoin : joinerAt b ((c :: rest) ++ y) = joinerAt b (c :: rest) := rfl
        rw [hjoin]
        cases joinerAt b (c :: rest) with
        | some j =>
          obtain ⟨more, heq, hmore⟩ := ih (j.width - 1) (start + seg.length + j.width) []
          refine ⟨more, ?_, hmore⟩
          dsimp only
          rw [heq, List.cons_append]
        | none => exact ih ..

/-- A part that ends at an operator lies before what follows the last operator. -/
theorem pieces_start (input : Bytes) (skip start : Nat) (seg : Bytes) :
    start ≤ (pieces skip start seg input).2.start ∧ ∀ p ∈ (pieces skip start seg input).1,
      p.cmd.start + p.cmd.bytes.length < (pieces skip start seg input).2.start := by
  induction input generalizing skip start seg with
  | nil =>
    unfold pieces
    exact ⟨Nat.le_refl _, fun p hp => by cases hp⟩
  | cons b rest ih =>
    unfold pieces
    split
    · exact ih ..
    · split
      · rename_i j _
        obtain ⟨hstart, hmem⟩ := ih (j.width - 1) (start + seg.length + j.width) []
        have hwidth : 0 < j.width := by cases j <;> decide
        refine ⟨by dsimp only; omega, ?_⟩
        intro p hp
        rcases List.mem_cons.1 hp with rfl | hp
        · dsimp only
          omega
        · exact hmem p hp
      · exact ih ..

/-- No part that ends at an operator is the last part. -/
theorem trim_ne_lastPart (input : Bytes) (skip start : Nat) (seg : Bytes) :
    ∀ p ∈ (pieces skip start seg input).1, ∀ c ∈ lastPart (pieces skip start seg input).2, p.cmd.trim ≠ c.cmd.trim := by
  intro p hp c hc heq
  have hlt := (pieces_start input skip start seg).2 p hp
  unfold lastPart at hc
  split at hc
  · cases hc
  · rw [List.mem_singleton.1 hc] at heq
    have hstart := congrArg Slice.start heq
    have hle : (p.cmd.bytes.takeWhile isBlank).length ≤ p.cmd.bytes.length := (List.takeWhile_prefix isBlank).length_le
    unfold Slice.trim at hstart
    dsimp only at hstart
    omega

/-! ### Single commands -/

/-- The open quote after a line, when `q` is the one before it. -/
def quoteAfter : Option Byte → Bytes → Option Byte
  | q, [] => q
  | some q, b :: rest => quoteAfter (if b = q then none else some q) rest
  | none, b :: rest => quoteAfter (if b = dquote ∨ b = squote then some b else none) rest

/-- No operator starts outside quotes. -/
def operatorless : Option Byte → Bytes → Bool
  | _, [] => true
  | some q, b :: rest => operatorless (if b = q then none else some q) rest
  | none, b :: rest =>
    if b = dquote ∨ b = squote then operatorless (some b) rest
    else (joinerAt b rest).isNone && operatorless none rest

/-- One command, in which every quote is closed. -/
def Single (line : Bytes) : Prop := operatorless none line = true ∧ quoteAfter none line = none ∧ trim line ≠ []

instance (line : Bytes) : Decidable (Single line) := inferInstanceAs (Decidable (_ ∧ _))

theorem trim_trim (s : Bytes) : trim (trim s) = trim s := by
  have hhead : (trim s).dropWhile isBlank = trim s := by
    unfold trim
    generalize hr : s.dropWhile isBlank = r
    generalize ht : (r.reverse.dropWhile isBlank).reverse = t
    have hpre : t <+: r := by
      have hsuffix := List.dropWhile_suffix isBlank (l := r.reverse)
      rw [← ht, ← List.reverse_suffix, List.reverse_reverse]
      exact hsuffix
    cases t with
    | nil => rfl
    | cons b t =>
      obtain ⟨more, rfl⟩ := hpre
      rw [List.dropWhile_cons_of_neg]
      intro hb
      have := List.dropWhile_idempotent (p := isBlank) (l := s)
      rw [hr, List.cons_append, List.dropWhile_cons_of_pos hb] at this
      have hlen := congrArg List.length this
      have hle := (List.dropWhile_suffix isBlank (l := t ++ more)).length_le
      rw [List.length_cons] at hlen
      omega
  have houter : trim (trim s) = (((trim s).dropWhile isBlank).reverse.dropWhile isBlank).reverse := rfl
  rw [houter, hhead]
  unfold trim
  rw [List.reverse_reverse, List.dropWhile_idempotent]

/-- The loop reads a single command up to the end or a semicolon. -/
private theorem splitLoop_operatorless {s : Bytes} {q : Option Byte} (hsingle : operatorless q s = true) {rest : Bytes}
    (hrest : rest = [] ∨ rest.head? = some semicolon) (start : Nat) (seg : Bytes) (out : List CompoundPart) :
    splitLoop q 0 start seg out (s ++ rest) = splitLoop (quoteAfter q s) 0 start (seg ++ s) out rest := by
  induction s generalizing q seg with
  | nil => rw [List.append_nil, List.nil_append, quoteAfter]
  | cons b s ih =>
    have happend : seg ++ b :: s = seg ++ [b] ++ s := by simp
    rw [List.cons_append, happend]
    unfold operatorless at hsingle
    unfold quoteAfter
    conv => lhs; unfold splitLoop
    rw [if_neg (Nat.lt_irrefl 0)]
    cases q with
    | some q => exact ih hsingle _
    | none =>
      dsimp only at hsingle ⊢
      by_cases hquote : b = dquote ∨ b = squote
      · rw [if_pos hquote] at hsingle
        rw [if_pos hquote, if_pos hquote]
        exact ih hsingle _
      · rw [if_neg hquote] at hsingle
        obtain ⟨hjoin, hsingle⟩ := Bool.and_eq_true_iff.1 hsingle
        have hjoin : joinerAt b (s ++ rest) = none := by
          cases s with
          | cons c s => exact Option.isNone_iff_eq_none.1 hjoin
          | nil =>
            rw [List.nil_append]
            unfold joinerAt at hjoin ⊢
            rcases hrest with rfl | hhead
            · exact Option.isNone_iff_eq_none.1 hjoin
            · rw [hhead]
              split at hjoin
              · cases hjoin
              · rename_i hsemi
                rw [if_neg hsemi, if_neg (by rintro ⟨-, h⟩; cases h), if_neg (by rintro ⟨-, h⟩; cases h)]
        rw [if_neg hquote, if_neg hquote, hjoin]
        exact ih hsingle _

/-- A single command is one part. -/
theorem splitCompound_single {a : Bytes} (ha : Single a) : splitCompound a = [⟨(Slice.mk 0 a).trim, .seq⟩] := by
  obtain ⟨hop, hquote, hblank⟩ := ha
  have hloop := splitLoop_operatorless hop (Or.inl rfl) 0 [] []
  rw [List.append_nil, List.nil_append, hquote] at hloop
  have hkept : (Slice.mk 0 a).trim.bytes ≠ [] := hblank
  unfold splitCompound
  rw [hloop]
  unfold splitLoop
  dsimp only
  rw [if_neg hkept]
  rfl

/-- Two single commands with a semicolon between are two parts. -/
theorem splitCompound_pair {a b : Bytes} (ha : Single a) (hb : Single b) :
    splitCompound (a ++ semicolon :: b) = [⟨⟨0, a⟩, .seq⟩, ⟨(Slice.mk (a.length + 1) b).trim, .seq⟩] := by
  obtain ⟨hop, hquote, -⟩ := ha
  obtain ⟨hop', hquote', hblank⟩ := hb
  have hfirst := splitLoop_operatorless hop (Or.inr (List.head?_cons (a := semicolon) (l := b))) 0 [] []
  have hsecond := splitLoop_operatorless hop' (Or.inl rfl) (a.length + 1) [] [⟨⟨0, a⟩, .seq⟩]
  rw [List.append_nil, List.nil_append, hquote'] at hsecond
  have hsemi : splitLoop none 0 0 a [] (semicolon :: b) =
      splitLoop none 0 (a.length + 1) [] [⟨⟨0, a⟩, .seq⟩] b := by
    conv => lhs; unfold splitLoop
    have hjoin : joinerAt semicolon b = some .seq := rfl
    rw [if_neg (Nat.lt_irrefl 0), hjoin]
    dsimp only
    rw [if_neg (by decide), Nat.zero_add]
    rfl
  rw [hquote, List.nil_append, hsemi, hsecond] at hfirst
  have hkept : (Slice.mk (a.length + 1) b).trim.bytes ≠ [] := hblank
  unfold splitCompound
  rw [hfirst]
  unfold splitLoop
  dsimp only
  rw [if_neg hkept]
  rfl

/-! ### Putting a line together -/

def Joiner.text : Joiner → Bytes
  | .seq => [semicolon]
  | .and => [ampersand, ampersand]
  | .or => [bar, bar]

/-- The line `c₁ op₁ c₂ op₂ … last`. -/
def render : List (Bytes × Joiner) → Bytes → Bytes
  | [], last => last
  | (c, j) :: cs, last => c ++ (j.text ++ render cs last)

/-- Its commands, with their places in the line. -/
def located (start : Nat) : List (Bytes × Joiner) → Bytes → List CompoundPart
  | [], last => [⟨(Slice.mk start last).trim, .seq⟩]
  | (c, j) :: cs, last => ⟨⟨start, c⟩, j⟩ :: located (start + c.length + j.width) cs last

/-- No operator starts in `s` when `rest` follows. -/
def operatorFree : Bytes → Bytes → Bool
  | [], _ => true
  | b :: s, rest => (joinerAt b (s ++ rest)).isNone && operatorFree s rest

/-- The commands hold no operators, also not together with the operator that follows, and the last one is not blank. -/
def WellFormed (cs : List (Bytes × Joiner)) (last : Bytes) : Prop :=
  (∀ x ∈ cs, operatorFree x.1 x.2.text = true) ∧ operatorFree last [] = true ∧ trim last ≠ []

instance (cs : List (Bytes × Joiner)) (last : Bytes) : Decidable (WellFormed cs last) :=
  inferInstanceAs (Decidable (_ ∧ _))

private theorem operatorFree_append {s t : Bytes} (ht : t ≠ []) (more : Bytes) :
    operatorFree s (t ++ more) = operatorFree s t := by
  induction s with
  | nil => rfl
  | cons b s ih =>
    have hhead : (s ++ (t ++ more)).head? = (s ++ t).head? := by
      cases s with
      | nil =>
        obtain ⟨c, t', rfl⟩ := List.exists_cons_of_ne_nil ht
        rfl
      | cons => rfl
    unfold operatorFree joinerAt
    rw [ih, hhead]

private theorem pieces_operatorFree {s rest : Bytes} (hfree : operatorFree s rest = true) (start : Nat) (seg : Bytes) :
    pieces 0 start seg (s ++ rest) = pieces 0 start (seg ++ s) rest := by
  induction s generalizing seg with
  | nil => rw [List.append_nil, List.nil_append]
  | cons b s ih =>
    unfold operatorFree at hfree
    obtain ⟨hjoin, hfree⟩ := Bool.and_eq_true_iff.1 hfree
    rw [List.cons_append]
    conv => lhs; unfold pieces
    rw [if_neg (Nat.lt_irrefl 0), Option.isNone_iff_eq_none.1 hjoin]
    dsimp only
    rw [ih hfree, List.append_assoc, List.singleton_append]

private theorem pieces_joiner (j : Joiner) (start : Nat) (seg rest : Bytes) :
    pieces 0 start seg (j.text ++ rest) =
      (⟨⟨start, seg⟩, j⟩ :: (pieces 0 (start + seg.length + j.width) [] rest).1,
        (pieces 0 (start + seg.length + j.width) [] rest).2) := by
  cases j <;> rfl

private theorem pieces_render {cs : List (Bytes × Joiner)} {last : Bytes} (h : WellFormed cs last) (start : Nat) :
    (pieces 0 start [] (render cs last)).1 ++ lastPart (pieces 0 start [] (render cs last)).2 =
      located start cs last := by
  induction cs generalizing start with
  | nil =>
    obtain ⟨-, hfree, hblank⟩ := h
    have hpieces := pieces_operatorFree hfree start []
    rw [List.append_nil, List.nil_append] at hpieces
    unfold render located
    rw [hpieces]
    unfold pieces lastPart
    exact if_neg hblank
  | cons x cs ih =>
    obtain ⟨c, j⟩ := x
    obtain ⟨hall, hlast⟩ := h
    have hfree : operatorFree c (j.text ++ render cs last) = true := by
      rw [operatorFree_append (by cases j <;> exact List.cons_ne_nil _ _)]
      exact hall (c, j) List.mem_cons_self
    have hrest := ih ⟨fun x hx => hall x (List.mem_cons_of_mem _ hx), hlast⟩ (start + c.length + j.width)
    unfold render located
    rw [pieces_operatorFree hfree, List.nil_append, pieces_joiner, List.cons_append, hrest]

/-- The commands of a line that has been put together are the ones it was made of. -/
theorem commandsOf_render {cs : List (Bytes × Joiner)} {last : Bytes} (h : WellFormed cs last) :
    commandsOf (render cs last) = located 0 cs last := pieces_render h 0

end Rost.Shell
