import Rost.Shell.Dispatch
import Rost.Shell.Splitting
import Mathlib.Data.List.TakeDrop

/-!
# Quoted arguments

A list of arguments without double quotes becomes a line by quoting each of them.  The splitter leaves such a line in one
piece and the tokenizer gives the list back.  An alias in the first place loses arguments if the line that is put together
for it has no room for them, if there are more than 16 words in it, if the text of the alias leaves a quote open, or if the
name of the alias is empty or has a space in it; otherwise it keeps them (`keeps_iff_takes`).
-/

namespace Rost.Shell

open Vfs (Bytes ascii)

/-! ### Words of a text -/

/-- A text with the words in it, and whether it leaves no quoted word open at its end. -/
inductive Text : List Bytes → Bool → Bytes → Prop
  | done : Text [] true []
  | space {ws : List Bytes} {closed : Bool} {s : Bytes} (hs : Text ws closed s) : Text ws closed (space :: s)
  | bare {ws : List Bytes} {closed : Bool} {b : Byte} {w s : Bytes} (hb : b ≠ space ∧ b ≠ dquote ∧ b ≠ squote)
      (hw : space ∉ w) (hend : s = [] ∨ s.head? = some space) (hs : Text ws closed s) :
      Text ((b :: w) :: ws) closed (b :: (w ++ s))
  | quoted {ws : List Bytes} {closed : Bool} {q : Byte} {w s : Bytes} (hq : q = dquote ∨ q = squote) (hw : q ∉ w)
      (hs : Text ws closed s) : Text (w :: ws) closed (q :: (w ++ q :: s))
  | opened {q : Byte} {w : Bytes} (hq : q = dquote ∨ q = squote) (hw : q ∉ w) : Text [w] false (q :: w)

/-- A byte in a text is found for the first time somewhere. -/
private theorem cut_at {b : Byte} {s : Bytes} (h : b ∈ s) : ∃ us vs, b ∉ us ∧ s = us ++ b :: vs := by
  induction s with
  | nil => cases h
  | cons c s ih =>
    by_cases hc : b = c
    · exact ⟨[], s, by simp, by rw [hc]; rfl⟩
    · obtain ⟨us, vs, hus, rfl⟩ := ih (List.mem_of_ne_of_mem hc h)
      exact ⟨c :: us, vs, by simp [hc, hus], rfl⟩

theorem exists_text (s : Bytes) : ∃ ws closed, Text ws closed s := by
  -- a word is taken at once, so that the induction is on the length
  generalize hn : s.length = n
  induction n using Nat.strongRecOn generalizing s with
  | ind n ih =>
    subst hn
    cases s with
    | nil => exact ⟨[], true, .done⟩
    | cons b s =>
      by_cases hspace : b = space
      · obtain ⟨ws, closed, hs⟩ := ih s.length (by simp) s rfl
        exact ⟨ws, closed, hspace ▸ .space hs⟩
      by_cases hquote : b = dquote ∨ b = squote
      · by_cases hmem : b ∈ s
        · obtain ⟨us, vs, hus, rfl⟩ := cut_at hmem
          obtain ⟨ws, closed, hs⟩ := ih vs.length (by simp only [List.length_append, List.length_cons]; omega) vs rfl
          exact ⟨us :: ws, closed, .quoted hquote hus hs⟩
        · exact ⟨[s], false, .opened hquote hmem⟩
      have hbare : b ≠ space ∧ b ≠ dquote ∧ b ≠ squote := ⟨hspace, not_or.1 hquote⟩
      by_cases hmem : space ∈ s
      · obtain ⟨us, vs, hus, rfl⟩ := cut_at hmem
        have hlt : (space :: vs).length < (b :: (us ++ space :: vs)).length := by
          simp only [List.length_cons, List.length_append]
          omega
        obtain ⟨ws, closed, hs⟩ := ih _ hlt (space :: vs) rfl
        exact ⟨(b :: us) :: ws, closed, .bare hbare hus (Or.inr rfl) hs⟩
      · have htext := Text.bare hbare hmem (Or.inl rfl) .done
        rw [List.append_nil] at htext
        exact ⟨[b :: s], true, htext⟩

private theorem words_nil (n : Nat) : words n [] = [] := by
  cases n <;> rfl

/-- The tokenizer gives the first words of a text. -/
theorem words_text {ws : List Bytes} {closed : Bool} {s : Bytes} (h : Text ws closed s) (n : Nat) :
    words n s = ws.take n := by
  induction h generalizing n with
  | done => rw [words_nil, List.take_nil]
  | space hs ih => rw [words_space, ih]
  | bare hb hw hend hs ih =>
    cases n with
    | zero => rfl
    | succ n => rw [words_bare n hb hw hend, ih, List.take_succ_cons]
  | quoted hq hw hs ih =>
    cases n with
    | zero => rfl
    | succ n => rw [(words_quoted n hq hw _).1, ih, List.take_succ_cons]
  | opened hq hw =>
    cases n with
    | zero => rfl
    | succ n => rw [(words_quoted n hq hw []).2, List.take_succ_cons, List.take_nil]

private theorem ends_append {s : Bytes} (hend : s = [] ∨ s.head? = some space) (t : Bytes) :
    s ++ space :: t = [] ∨ (s ++ space :: t).head? = some space := by
  rcases hend with rfl | hhead
  · exact Or.inr rfl
  · cases s with
    | nil => cases hhead
    | cons c s => exact Or.inr hhead

/-- Behind a text in which every quote is closed, the words of another one follow. -/
theorem words_append_of_closed {ws : List Bytes} {s : Bytes} (h : Text ws true s) (n : Nat) (t : Bytes) :
    words n (s ++ space :: t) = ws.take n ++ words (n - ws.length) t := by
  generalize hclosed : true = closed at h
  induction h generalizing n with
  | done => rw [List.nil_append, words_space, List.take_nil, List.nil_append, List.length_nil, Nat.sub_zero]
  | space hs ih => rw [List.cons_append, words_space, ih _ hclosed]
  | bare hb hw hend hs ih =>
    cases n with
    | zero => simp [words]
    | succ n =>
      rw [List.cons_append, List.append_assoc, words_bare n hb hw (ends_append hend t), ih _ hclosed, List.take_succ_cons,
        List.cons_append, List.length_cons, Nat.succ_sub_succ]
  | quoted hq hw hs ih =>
    cases n with
    | zero => simp [words]
    | succ n =>
      rw [List.cons_append, List.append_assoc, List.cons_append, (words_quoted n hq hw _).1, ih _ hclosed,
        List.take_succ_cons, List.cons_append, List.length_cons, Nat.succ_sub_succ]
  | opened hq hw => cases hclosed

/-- Behind a text in which a quote is open, its last word goes on. -/
theorem words_append_of_open {ws : List Bytes} {s : Bytes} (h : Text ws false s) {n : Nat} (hroom : ws.length < n)
    (t : Bytes) : ¬ ws <+: words n (s ++ space :: t) := by
  generalize hopen : false = closed at h
  induction h generalizing n with
  | done => cases hopen
  | space hs ih =>
    rw [List.cons_append, words_space]
    exact ih hroom hopen
  | bare hb hw hend hs ih =>
    cases n with
    | zero => exact absurd hroom (Nat.not_lt_zero _)
    | succ n =>
      rw [List.cons_append, List.append_assoc, words_bare n hb hw (ends_append hend t), List.cons_prefix_cons]
      exact fun hpre => ih (Nat.lt_of_succ_lt_succ hroom) hopen hpre.2
  | quoted hq hw hs ih =>
    cases n with
    | zero => exact absurd hroom (Nat.not_lt_zero _)
    | succ n =>
      rw [List.cons_append, List.append_assoc, List.cons_append, (words_quoted n hq hw _).1, List.cons_prefix_cons]
      exact fun hpre => ih (Nat.lt_of_succ_lt_succ hroom) hopen hpre.2
  | @opened q w hq hw =>
    cases n with
    | zero => exact absurd hroom (Nat.not_lt_zero _)
    | succ n =>
      have hspace : q ≠ space := by rcases hq with rfl | rfl <;> decide
      -- the space belongs to the word, wherever the quote is closed
      have hword : ∃ more us, words (n + 1) (q :: w ++ space :: t) = (w ++ space :: more) :: us := by
        by_cases hmem : q ∈ t
        · obtain ⟨us, vs, hus, rfl⟩ := cut_at hmem
          have hw' : q ∉ w ++ space :: us := by simp [hw, hspace, hus]
          have hwords := (words_quoted n hq hw' vs).1
          rw [List.append_assoc, List.cons_append] at hwords
          exact ⟨us, words n vs, hwords⟩
        · have hw' : q ∉ w ++ space :: t := by simp [hw, hspace, hmem]
          exact ⟨t, [], (words_quoted n hq hw' []).2⟩
      obtain ⟨more, us, hwords⟩ := hword
      rw [hwords, List.cons_prefix_cons]
      rintro ⟨heq, -⟩
      have hlen := congrArg List.length heq
      simp at hlen

/-! ### Lines of quoted arguments -/

def quote (a : Bytes) : Bytes := dquote :: (a ++ [dquote])

/-- Arguments with a space and `n` more before each of them. -/
def spaced (rest : List (Nat × Bytes)) : Bytes := rest.flatMap fun a => List.replicate (a.1 + 1) space ++ quote a.2

/-- Up to 16 arguments, with the numbers of spaces between them. -/
structure QuotedArgs where
  first : Bytes
  rest : List (Nat × Bytes)
  rest_lt : rest.length < maxArgs
  first_plain : dquote ∉ first
  rest_plain : ∀ a ∈ rest, dquote ∉ a.2

namespace QuotedArgs

def args (c : QuotedArgs) : List Bytes := c.first :: c.rest.map Prod.snd

def line (c : QuotedArgs) : Bytes := quote c.first ++ spaced c.rest

/-- The arguments behind the first one, as they stand in the line. -/
def remaining (c : QuotedArgs) : Bytes :=
  match c.rest with
  | [] => []
  | a :: more => quote a.2 ++ spaced more

/-- What is in the first argument behind the first spaces in it. -/
def behindSpaces (c : QuotedArgs) : Bytes := (c.first.dropWhile fun b => b != space).dropWhile fun b => b == space

end QuotedArgs

private theorem spaced_cons (a : Nat × Bytes) (rest : List (Nat × Bytes)) :
    spaced (a :: rest) = List.replicate (a.1 + 1) space ++ (quote a.2 ++ spaced rest) := by
  simp [spaced]

private theorem words_spaces (n k : Nat) (s : Bytes) : words n (List.replicate k space ++ s) = words n s := by
  induction k with
  | zero => rfl
  | succ k ih => rw [List.replicate_succ, List.cons_append, words_space, ih]

private theorem words_quote {a : Bytes} (ha : dquote ∉ a) (n : Nat) (s : Bytes) :
    words (n + 1) (quote a ++ s) = a :: words n s := by
  have h := (words_quoted n (Or.inl rfl) ha s).1
  rw [← h, quote, List.cons_append, List.append_assoc, List.singleton_append]

private theorem words_spaced {rest : List (Nat × Bytes)} (h : ∀ a ∈ rest, dquote ∉ a.2) {n : Nat} (hn : rest.length ≤ n) :
    words n (spaced rest) = rest.map Prod.snd := by
  induction rest generalizing n with
  | nil => exact words_nil n
  | cons a rest ih =>
    obtain ⟨ha, hrest⟩ := List.forall_mem_cons.1 h
    rw [List.length_cons] at hn
    obtain ⟨n, rfl⟩ : ∃ m, n = m + 1 := ⟨n - 1, by omega⟩
    rw [spaced_cons, words_spaces, words_quote ha, ih hrest (by omega), List.map_cons]

/-- The splitter finds no operator in an argument. -/
private theorem operatorless_quote {a : Bytes} (ha : dquote ∉ a) (s : Bytes) :
    operatorless none (quote a ++ s) = operatorless none s ∧ quoteAfter none (quote a ++ s) = quoteAfter none s := by
  have hinside : operatorless (some dquote) (a ++ dquote :: s) = operatorless none s ∧
      quoteAfter (some dquote) (a ++ dquote :: s) = quoteAfter none s := by
    induction a with
    | nil => exact ⟨rfl, rfl⟩
    | cons b a ih =>
      -- no byte of the argument closes the quote
      rw [List.mem_cons, not_or] at ha
      rw [List.cons_append, operatorless, quoteAfter, if_neg (Ne.symm ha.1)]
      exact ih ha.2
  rw [quote, List.cons_append, List.append_assoc, List.singleton_append]
  exact hinside

private theorem operatorless_spaced {rest : List (Nat × Bytes)} (h : ∀ a ∈ rest, dquote ∉ a.2) :
    operatorless none (spaced rest) = true ∧ quoteAfter none (spaced rest) = none := by
  have hspaces : ∀ (k : Nat) (s : Bytes), operatorless none (List.replicate k space ++ s) = operatorless none s ∧
      quoteAfter none (List.replicate k space ++ s) = quoteAfter none s := by
    intro k s
    induction k with
    | zero => exact ⟨rfl, rfl⟩
    | succ k ih => exact ih
  induction rest with
  | nil => exact ⟨rfl, rfl⟩
  | cons a rest ih =>
    obtain ⟨ha, hrest⟩ := List.forall_mem_cons.1 h
    rw [spaced_cons, (hspaces _ _).1, (hspaces _ _).2, (operatorless_quote ha _).1, (operatorless_quote ha _).2]
    exact ih hrest

namespace QuotedArgs

variable (c : QuotedArgs)

theorem tokenize_line : tokenize c.line = c.args := by
  have hrest := words_spaced c.rest_plain (Nat.le_of_lt_succ c.rest_lt)
  unfold tokenize line args
  rw [maxArgs, words_quote c.first_plain, hrest]

theorem words_remaining {n : Nat} (hn : c.rest.length ≤ n) : words n c.remaining = c.rest.map Prod.snd := by
  have hplain := c.rest_plain
  unfold remaining
  cases hrest : c.rest with
  | nil => exact words_nil n
  | cons a more =>
    rw [hrest] at hplain hn
    obtain ⟨ha, hmore⟩ := List.forall_mem_cons.1 hplain
    rw [List.length_cons] at hn
    obtain ⟨n, rfl⟩ : ∃ m, n = m + 1 := ⟨n - 1, by omega⟩
    dsimp only
    rw [words_quote ha, words_spaced hmore (by omega), List.map_cons]

theorem remaining_le : c.remaining.length ≤ (spaced c.rest).length := by
  unfold remaining
  cases c.rest with
  | nil => exact Nat.le_refl _
  | cons a more =>
    rw [spaced_cons]
    exact (List.suffix_append _ _).length_le

/-- The line starts and ends with a quote. -/
theorem trim_line : (Slice.mk 0 c.line).trim = ⟨0, c.line⟩ := by
  have hends : ∃ s, c.line = s ++ [dquote] := by
    unfold line
    rcases List.eq_nil_or_concat' c.rest with hrest | ⟨before, a, hrest⟩
    · exact ⟨dquote :: c.first, by simp [hrest, spaced, quote]⟩
    · exact ⟨quote c.first ++ (spaced before ++ List.replicate (a.1 + 1) space ++ dquote :: a.2), by
        simp [hrest, spaced, quote]⟩
  obtain ⟨s, hs⟩ := hends
  have hhead : c.line.takeWhile isBlank = [] := by
    rw [line, quote, List.cons_append, List.takeWhile_cons_of_neg (by decide)]
  have hdrop : c.line.dropWhile isBlank = c.line := by
    rw [line, quote, List.cons_append, List.dropWhile_cons_of_neg (by decide)]
  have htrim : trim c.line = c.line := by
    rw [trim, hdrop, hs, List.reverse_concat, List.dropWhile_cons_of_neg (by decide), ← List.reverse_concat,
      List.reverse_reverse]
  rw [Slice.trim, hhead, htrim]
  rfl

/-- The line is one command. -/
theorem splitCompound_line : splitCompound c.line = [⟨⟨0, c.line⟩, .seq⟩] := by
  have hspaced := operatorless_spaced c.rest_plain
  have hquote := operatorless_quote c.first_plain (spaced c.rest)
  have hbytes : trim c.line = c.line := congrArg Slice.bytes c.trim_line
  have hsingle : Single c.line := by
    refine ⟨?_, ?_, ?_⟩
    · rw [line, hquote.1, hspaced.1]
    · rw [line, hquote.2, hspaced.2]
    · rw [hbytes, line, quote, List.cons_append]
      exact List.cons_ne_nil _ _
  rw [splitCompound_single hsingle, c.trim_line]

/-- What is behind the first token is the remaining arguments, or starts inside of the first one if this has a space in it. -/
theorem skipFirstToken_line : (space ∉ c.first → skipFirstToken c.line = c.remaining) ∧
    (space ∈ c.first → skipFirstToken c.line = c.behindSpaces ++ dquote :: spaced c.rest) := by
  have hline : c.line = dquote :: (c.first ++ dquote :: spaced c.rest) := by simp [line, quote]
  constructor
  · intro hfirst
    -- the spaces before the second argument, if there is one
    have hspaced : (spaced c.rest).dropWhile (fun b => b != space) = spaced c.rest ∧
        (spaced c.rest).dropWhile (fun b => b == space) = c.remaining := by
      unfold remaining
      cases c.rest with
      | nil => exact ⟨rfl, rfl⟩
      | cons a more =>
        have hblank : ∀ b ∈ List.replicate (a.1 + 1) space, (b == space) = true := by
          intro b hb
          rw [List.eq_of_mem_replicate hb]
          rfl
        rw [spaced_cons]
        constructor
        · rw [List.replicate_succ, List.cons_append, List.dropWhile_cons_of_neg (by decide)]
        · rw [List.dropWhile_append_of_pos hblank, quote, List.cons_append, List.dropWhile_cons_of_neg (by decide)]
          rfl
    have hall : ∀ b ∈ dquote :: (c.first ++ [dquote]), (b != space) = true := by
      intro b hb
      rw [bne_iff_ne]
      rintro rfl
      have hmem : space ∉ dquote :: (c.first ++ [dquote]) := by
        simp [hfirst]
        decide
      exact hmem hb
    have hline' : c.line = dquote :: (c.first ++ [dquote]) ++ spaced c.rest := by simp [hline]
    rw [skipFirstToken, hline', List.dropWhile_append_of_pos hall, hspaced.1, hspaced.2]
  · intro hfirst
    have hstop : c.first.dropWhile (fun b => b != space) ≠ [] := by
      intro h
      have hall := List.dropWhile_eq_nil_iff.1 h space hfirst
      cases hall
    have hquote : (dquote :: spaced c.rest).dropWhile (fun b => b == space) = dquote :: spaced c.rest :=
      List.dropWhile_cons_of_neg (by decide)
    rw [skipFirstToken, hline, List.dropWhile_cons_of_pos (by decide), List.dropWhile_append, List.isEmpty_eq_false_iff.2 hstop,
      if_neg (by decide), List.dropWhile_append, hquote, behindSpaces]
    split
    · rename_i hnil
      rw [List.isEmpty_iff.1 hnil, List.nil_append]
    · rfl

end QuotedArgs

/-! ### Aliases -/

/-- The line that `dispatch_single` hands to `dispatch`, if it runs a command. -/
def dispatched (aliases : AliasStore) (line : Bytes) : Option Bytes :=
  if line = [] ∨ (findAssignment line).isSome ∨ arg (tokenize line) 0 = [] then none else some (expandAlias aliases line)

namespace QuotedArgs

variable (c : QuotedArgs)

/-- The text of an alias with the remaining arguments behind it. -/
def behind (text : Bytes) : Bytes := text ++ if c.rest = [] then [] else space :: c.remaining

/-- No argument is lost: the tokenizer gives all of them, the splitter cuts none of them, and a command is run on the line, or
on the text of an alias and the arguments that follow it. -/
structure Keeps (aliases : AliasStore) : Prop where
  words : tokenize c.line = c.args
  uncut : splitCompound c.line = [⟨⟨0, c.line⟩, .seq⟩] ∧ (Slice.mk 0 c.line).trim = ⟨0, c.line⟩
  unaliased : aliases.get c.first = none → c.first ≠ [] → dispatched aliases c.line = some c.line
  expanded : ∀ text, aliases.get c.first = some text → dispatched aliases c.line = some (c.behind text) ∧
    tokenize (c.behind text) = tokenize text ++ c.args.tail

/-- The text of an alias takes the arguments that follow. -/
def Takes (text : Bytes) : Prop :=
  c.first ≠ [] ∧
    if c.rest = [] then
      text.length < lineMax ∧ (space ∉ c.first ∨ lineMax ≤ text.length + 2 + c.behindSpaces.length)
    else
      space ∉ c.first ∧ text.length + 1 + c.remaining.length < lineMax ∧
        ∃ ws, Text ws true text ∧ ws.length + c.rest.length ≤ maxArgs

theorem arg_line : arg (tokenize c.line) 0 = c.first := by
  rw [tokenize_line]
  rfl

/-- The line runs a command if the first argument is one. -/
theorem dispatched_line (aliases : AliasStore) : dispatched aliases c.line =
    if c.first = [] then none else some (expandAlias aliases c.line) := by
  have hne : c.line ≠ [] := List.cons_ne_nil _ _
  have hassign : findAssignment c.line = none := by
    rw [findAssignment, line, quote, List.cons_append, List.dropWhile_cons_of_neg (by decide)]
    exact if_neg (by rintro ⟨h, -⟩; exact absurd h (by decide))
  rw [dispatched, hassign, c.arg_line]
  exact if_congr (by simp [hne]) rfl rfl

/-- The tokenizer gives the words of the text and the remaining arguments if all of them count and no quote is open. -/
theorem tokenize_behind_iff (text : Bytes) (hrest : c.rest ≠ []) : tokenize (c.behind text) = tokenize text ++ c.args.tail ↔
    ∃ ws, Text ws true text ∧ ws.length + c.rest.length ≤ maxArgs := by
  have hpos : 0 < c.rest.length := List.length_pos_of_ne_nil hrest
  have htail : c.args.tail = c.rest.map Prod.snd := rfl
  have hbehind : c.behind text = text ++ space :: c.remaining := by rw [behind, if_neg hrest]
  unfold tokenize
  rw [hbehind, htail]
  constructor
  · intro h
    obtain ⟨ws, closed, htext⟩ := exists_text text
    have hlen : (words maxArgs (text ++ space :: c.remaining)).length ≤ maxArgs := by
      obtain ⟨vs, closed', hall⟩ := exists_text (text ++ space :: c.remaining)
      rw [words_text hall]
      exact List.length_take_le _ _
    rw [h, words_text htext, List.length_append, List.length_take, List.length_map] at hlen
    cases closed with
    | true => exact ⟨ws, htext, by omega⟩
    | false =>
      refine absurd ?_ (words_append_of_open htext (show ws.length < maxArgs by omega) c.remaining)
      rw [h, words_text htext, List.take_of_length_le (by omega)]
      exact List.prefix_append _ _
  · rintro ⟨ws, htext, hle⟩
    rw [words_append_of_closed htext, words_text htext, c.words_remaining (by omega)]

theorem expandAlias_line {aliases : AliasStore} {text : Bytes} (h : aliases.get c.first = some text) :
    expandAlias aliases c.line =
      if skipFirstToken c.line ≠ [] ∧ (text.take (lineMax - 1)).length + 1 + (skipFirstToken c.line).length < lineMax then
        text.take (lineMax - 1) ++ space :: skipFirstToken c.line
      else text.take (lineMax - 1) := by
  rw [expandAlias, c.arg_line, h]

theorem dispatched_unaliased {aliases : AliasStore} (h : aliases.get c.first = none) (hfirst : c.first ≠ []) :
    dispatched aliases c.line = some c.line := by
  rw [dispatched_line, if_neg hfirst, expandAlias, c.arg_line, h]

private theorem take_text_iff (text : Bytes) : text.take (lineMax - 1) = text ↔ text.length < lineMax := by
  rw [List.take_eq_self_iff]
  exact Nat.le_sub_one_iff_lt (by decide)

/-- Without more arguments the line for the alias is its text, unless something of the first argument comes with it. -/
theorem expandAlias_alone_iff {aliases : AliasStore} {text : Bytes} (h : aliases.get c.first = some text)
    (hrest : c.rest = []) : expandAlias aliases c.line = c.behind text ↔
      text.length < lineMax ∧ (space ∉ c.first ∨ lineMax ≤ text.length + 2 + c.behindSpaces.length) := by
  have hbehind : c.behind text = text := by rw [behind, if_pos hrest, List.append_nil]
  have hcut : (text.take (lineMax - 1)).length = min (lineMax - 1) text.length := List.length_take
  rw [c.expandAlias_line h, hbehind]
  by_cases hfirst : space ∈ c.first
  · have hskip := congrArg List.length (c.skipFirstToken_line.2 hfirst)
    rw [hrest, List.length_append, List.length_cons, show (spaced []).length = 0 from rfl] at hskip
    generalize skipFirstToken c.line = skip at hskip ⊢
    have hne : skip ≠ [] := List.ne_nil_of_length_pos (by omega)
    by_cases hroom : (text.take (lineMax - 1)).length + 1 + skip.length < lineMax
    · rw [if_pos ⟨hne, hroom⟩]
      refine iff_of_false (fun heq => ?_) ?_
      · have hlen := congrArg List.length heq
        rw [List.length_append, List.length_cons] at hlen
        omega
      · rintro ⟨hlt, hno | hfull⟩
        · exact hno hfirst
        · omega
    · rw [if_neg fun hand => hroom hand.2, take_text_iff]
      constructor
      · intro hlt
        exact ⟨hlt, Or.inr (by omega)⟩
      · exact fun hand => hand.1
  · have hnone : skipFirstToken c.line = [] := by rw [c.skipFirstToken_line.1 hfirst, remaining, hrest]
    rw [if_neg fun hand => hand.1 hnone, take_text_iff]
    exact ⟨fun hlt => ⟨hlt, Or.inl hfirst⟩, fun hand => hand.1⟩

/-- With more arguments the line for the alias is its text and these if the first argument is skipped, and there is room. -/
theorem expandAlias_more_iff {aliases : AliasStore} {text : Bytes} (h : aliases.get c.first = some text)
    (hrest : c.rest ≠ []) : expandAlias aliases c.line = c.behind text ↔
      space ∉ c.first ∧ text.length + 1 + c.remaining.length < lineMax := by
  have hbehind : c.behind text = text ++ space :: c.remaining := by rw [behind, if_neg hrest]
  have hcut : (text.take (lineMax - 1)).length = min (lineMax - 1) text.length := List.length_take
  have hshort : text.take (lineMax - 1) ≠ text ++ space :: c.remaining := by
    intro heq
    have hlen := congrArg List.length heq
    rw [List.length_append, List.length_cons] at hlen
    omega
  rw [c.expandAlias_line h, hbehind]
  by_cases hfirst : space ∈ c.first
  · have hskip := congrArg List.length (c.skipFirstToken_line.2 hfirst)
    have hle := c.remaining_le
    rw [List.length_append, List.length_cons] at hskip
    generalize skipFirstToken c.line = skip at hskip ⊢
    -- what is skipped to starts inside of the first argument and is longer than the remaining ones
    refine iff_of_false (fun heq => ?_) fun hand => hand.1 hfirst
    split at heq
    · rename_i hand
      have hlen := congrArg List.length heq
      rw [List.length_append, List.length_append, List.length_cons, List.length_cons] at hlen
      omega
    · exact hshort heq
  · rw [c.skipFirstToken_line.1 hfirst]
    have hne : c.remaining ≠ [] := by
      obtain ⟨a, more, hcons⟩ := List.exists_cons_of_ne_nil hrest
      rw [remaining, hcons]
      exact List.cons_ne_nil _ _
    by_cases hroom : (text.take (lineMax - 1)).length + 1 + c.remaining.length < lineMax
    · have hlt : text.length + 1 + c.remaining.length < lineMax := by
        have hmax : lineMax = 256 := rfl
        omega
      rw [if_pos ⟨hne, hroom⟩, (take_text_iff text).2 (by omega)]
      exact iff_of_true rfl ⟨hfirst, hlt⟩
    · rw [if_neg fun hand => hroom hand.2]
      exact iff_of_false hshort fun hand => hroom (by omega)

/-- No argument is lost exactly if the text of an alias takes those that follow. -/
theorem keeps_iff_takes (aliases : AliasStore) :
    c.Keeps aliases ↔ ∀ text, aliases.get c.first = some text → c.Takes text := by
  have hone : ∀ text, aliases.get c.first = some text →
      ((dispatched aliases c.line = some (c.behind text) ∧ tokenize (c.behind text) = tokenize text ++ c.args.tail) ↔
        c.Takes text) := by
    intro text h
    rw [dispatched_line, Takes]
    by_cases hfirst : c.first = []
    · rw [if_pos hfirst]
      exact iff_of_false (by rintro ⟨h, -⟩; cases h) fun h => h.1 hfirst
    rw [if_neg hfirst, Option.some.injEq]
    by_cases hrest : c.rest = []
    · have hwords : tokenize (c.behind text) = tokenize text ++ c.args.tail := by
        rw [behind, args, if_pos hrest, hrest]
        simp
      rw [c.expandAlias_alone_iff h hrest, if_pos hrest]
      exact ⟨fun h => ⟨hfirst, h.1⟩, fun h => ⟨h.2, hwords⟩⟩
    · rw [c.expandAlias_more_iff h hrest, if_neg hrest, c.tokenize_behind_iff text hrest]
      exact ⟨fun h => ⟨hfirst, h.1.1, h.1.2, h.2⟩, fun h => ⟨⟨h.2.1, h.2.2.1⟩, h.2.2.2⟩⟩
  constructor
  · exact fun hkeeps text h => (hone text h).1 (hkeeps.expanded text h)
  · intro htakes
    exact ⟨c.tokenize_line, ⟨c.splitCompound_line, c.trim_line⟩, fun h => c.dispatched_unaliased h, fun text h =>
      (hone text h).2 (htakes text h)⟩

/-- The line `"." "xx…x"`, which is as long as a line can be. -/
def longScript : QuotedArgs where
  first := ascii "."
  rest := [(0, List.replicate 249 0x78)]
  rest_lt := by decide
  first_plain := by decide
  rest_plain := by
    intro a ha
    rw [List.mem_singleton.1 ha]
    exact fun h => absurd (List.eq_of_mem_replicate h) (by decide)

/-- The alias `.` runs `source` without the name of the script. -/
theorem longScript_is_lost : longScript.line.length = lineMax - 1 ∧
    AliasStore.initDefaults.get longScript.first = some (ascii "source") ∧
    dispatched AliasStore.initDefaults longScript.line = some (ascii "source") ∧
    ¬ longScript.Keeps AliasStore.initDefaults := by
  have halias : AliasStore.initDefaults.get longScript.first = some (ascii "source") := by decide +kernel
  have hlost : dispatched AliasStore.initDefaults longScript.line = some (ascii "source") := by decide +kernel
  refine ⟨by decide +kernel, halias, hlost, fun hkeeps => ?_⟩
  have hkept := (hkeeps.expanded _ halias).1
  rw [hlost, Option.some.injEq] at hkept
  exact absurd (congrArg List.length hkept) (by decide +kernel)

end QuotedArgs

end Rost.Shell
