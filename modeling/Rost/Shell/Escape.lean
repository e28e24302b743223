import Rost.Lib.Transducer
import Rost.Shell.Expand

/-!
# Escape sequences of the shell

The shell decodes the bytes it reads one at a time.  Whatever a stream is made of, plain bytes, `ESC [` sequences and
`ESC O` sequences, the decoder is back in its normal state after each of them.  It knows only three kinds of parameters,
though, and where a sequence has others it goes back too early: the final byte is then typed as a character
(`stream_decoded_iff`).  Among those are the modifiers of the arrow keys.
-/

namespace Rost.Shell

open Lib (feedAll feedAll_append feedAll_invariant feedAll_snoc feedAll_cons feedAll_nil)
open Vfs (Bytes ascii)

/-! ### The decoder -/

inductive Key where
  | char (b : Byte)
  | enter | backspace | delete | tab
  | arrowUp | arrowDown | arrowLeft | arrowRight | home | endKey
  | wordLeft | wordRight
  | ctrlA | ctrlB | ctrlC | ctrlD | ctrlE | ctrlF | ctrlK | ctrlL | ctrlN | ctrlP | ctrlR | ctrlU | ctrlW | ctrlY
  deriving DecidableEq

inductive EscapeState where
  | normal | esc | escBracket
  | escBracketParam (n : Nat)
  | escO | escBracket1Sc
  | escBracket1ScN (m : Nat)
  deriving DecidableEq

structure EscapeParser where
  state : EscapeState
  lastCr : Bool
  deriving DecidableEq

namespace EscapeParser

def new : EscapeParser := ⟨.normal, false⟩

/-- The key of a byte in the normal state, apart from ESC and the ends of lines. -/
def plainKey (b : Byte) : Option Key :=
  match b.toNat with
  | 0x08 | 0x7F => some .backspace
  | 0x09 => some .tab
  | 0x01 => some .ctrlA
  | 0x02 => some .ctrlB
  | 0x03 => some .ctrlC
  | 0x04 => some .ctrlD
  | 0x05 => some .ctrlE
  | 0x06 => some .ctrlF
  | 0x0B => some .ctrlK
  | 0x0C => some .ctrlL
  | 0x0E => some .ctrlN
  | 0x10 => some .ctrlP
  | 0x12 => some .ctrlR
  | 0x15 => some .ctrlU
  | 0x17 => some .ctrlW
  | 0x19 => some .ctrlY
  | n => if 0x20 ≤ n then some (.char b) else none

/-- The keys `A` to `D`, `H` and `F` after `ESC [` and after `ESC O`. -/
def arrowKey (b : Byte) : Option Key :=
  match b.toNat with
  | 0x41 => some .arrowUp
  | 0x42 => some .arrowDown
  | 0x43 => some .arrowRight
  | 0x44 => some .arrowLeft
  | 0x48 => some .home
  | 0x46 => some .endKey
  | _ => none

/-- The key of `ESC [ n ~`. -/
def tildeKey (n : Nat) : Option Key :=
  match n with
  | 1 | 7 => some .home
  | 3 => some .delete
  | 4 | 8 => some .endKey
  | _ => none

def feed (p : EscapeParser) (byte : Byte) : EscapeParser × Option Key :=
  match p.state with
  | .normal =>
    if byte = 0x1B then ({ state := .esc, lastCr := false }, none)
    else if byte = 0x0D then ({ p with lastCr := true }, some .enter)
    else if byte = 0x0A then
      -- the second byte of a CRLF pair
      if p.lastCr then ({ p with lastCr := false }, none) else (p, some .enter)
    else ({ p with lastCr := false }, plainKey byte)
  | .esc =>
    if byte = 0x5B then ({ p with state := .escBracket }, none)
    else if byte = 0x4F then ({ p with state := .escO }, none)
    else if byte = 0x62 ∨ byte = 0x42 then ({ p with state := .normal }, some .wordLeft)
    else if byte = 0x66 ∨ byte = 0x46 then ({ p with state := .normal }, some .wordRight)
    else ({ p with state := .normal }, none)
  | .escBracket =>
    if 0x31 ≤ byte.toNat ∧ byte.toNat ≤ 0x39 then
      if byte = 0x31 then ({ p with state := .escBracket1Sc }, none)
      else ({ p with state := .escBracketParam (byte.toNat - 0x30) }, none)
    else ({ p with state := .normal }, arrowKey byte)
  | .escBracket1Sc =>
    if byte = 0x7E then ({ p with state := .normal }, some .home)
    else if byte = 0x3B then ({ p with state := .escBracket1ScN 0 }, none)
    else ({ p with state := .normal }, none)
  | .escBracket1ScN _ =>
    if byte = 0x43 then ({ p with state := .normal }, some .wordRight)
    else if byte = 0x44 then ({ p with state := .normal }, some .wordLeft)
    else ({ p with state := .normal }, none)
  | .escBracketParam n => ({ p with state := .normal }, if byte = 0x7E then tildeKey n else none)
  | .escO => ({ p with state := .normal }, arrowKey byte)

end EscapeParser

/-! ### Sequences -/

/-- A parameter byte, 0x30 to 0x3F. -/
def IsParam (b : Byte) : Prop := 0x30 ≤ b.toNat ∧ b.toNat ≤ 0x3F

/-- A final byte, 0x40 to 0x7E. -/
def IsFinal (b : Byte) : Prop := 0x40 ≤ b.toNat ∧ b.toNat ≤ 0x7E

instance : DecidablePred IsParam := fun _ => inferInstanceAs (Decidable (_ ∧ _))

instance : DecidablePred IsFinal := fun _ => inferInstanceAs (Decidable (_ ∧ _))

/-- What a stream is made of. -/
inductive Item where
  | plain (b : Byte) (hb : b ≠ 0x1B)
  | csi (params : Bytes) (final : Byte) (hparams : ∀ b ∈ params, IsParam b) (hfinal : IsFinal final)
  | ss3 (x : Byte)

def Item.bytes : Item → Bytes
  | .plain b _ => [b]
  | .csi params final _ _ => [0x1B, 0x5B] ++ params ++ [final]
  | .ss3 x => [0x1B, 0x4F, x]

/-- A sequence yields at most one key, that of its last byte, which is no character, and the decoder is in its normal state
after it. -/
def Quiet (p : EscapeParser) (bytes : Bytes) : Prop :=
  (feedAll EscapeParser.feed p bytes).1.state = .normal ∧
    (∀ k ∈ (feedAll EscapeParser.feed p bytes).2.dropLast, k = none) ∧
    ∀ b, (feedAll EscapeParser.feed p bytes).2.getLast? ≠ some (some (.char b))

/-- An item is decoded as it should be: a sequence quietly, and a control arrow as a word movement. -/
def Item.Decoded (p : EscapeParser) : Item → Prop
  | .plain _ _ => True
  | .csi params final hparams hfinal =>
    Quiet p (Item.csi params final hparams hfinal).bytes ∧
      ∀ m, isDigit m = true → params = [0x31, 0x3B, m] →
        (final = 0x43 → (feedAll EscapeParser.feed p (Item.csi params final hparams hfinal).bytes).2.getLast? =
          some (some .wordRight)) ∧
        (final = 0x44 → (feedAll EscapeParser.feed p (Item.csi params final hparams hfinal).bytes).2.getLast? =
          some (some .wordLeft))
  | .ss3 x => Quiet p (Item.ss3 x).bytes

/-- Every item of a stream is decoded as it should be, in the state in which the decoder reaches it. -/
def StreamDecoded (p : EscapeParser) : List Item → Prop
  | [] => True
  | item :: rest => item.Decoded p ∧ StreamDecoded (feedAll EscapeParser.feed p item.bytes).1 rest

/-- The parameters the decoder knows: none, one digit from 1 to 9, and `1;`. -/
def Known (params : Bytes) : Prop :=
  params = [] ∨ (∃ d : Byte, 0x31 ≤ d.toNat ∧ d.toNat ≤ 0x39 ∧ params = [d]) ∨ params = [0x31, 0x3B]

def Item.Known : Item → Prop
  | .csi params _ _ _ => Shell.Known params
  | _ => True

/-! ### The states between the bytes of a sequence -/

private theorem plainKey_of_final : ∀ b, IsFinal b → EscapeParser.plainKey b = some (.char b) := by decide +kernel

private theorem arrowKey_ne_char (b c : Byte) : EscapeParser.arrowKey b ≠ some (.char c) := by
  unfold EscapeParser.arrowKey
  split <;> simp

private theorem tildeKey_ne_char (n : Nat) (c : Byte) : EscapeParser.tildeKey n ≠ some (.char c) := by
  unfold EscapeParser.tildeKey
  split <;> simp

private theorem param_ne : ∀ b, IsParam b → b ≠ 0x1B ∧ b ≠ 0x7E ∧ b ≠ 0x43 ∧ b ≠ 0x44 := by decide +kernel

private theorem final_ne : ∀ b, IsFinal b →
    b ≠ 0x1B ∧ b ≠ 0x0D ∧ b ≠ 0x0A ∧ b ≠ 0x3B ∧ ¬(0x31 ≤ b.toNat ∧ b.toNat ≤ 0x39) := by decide +kernel

/-- A byte other than ESC leaves the normal state as it is. -/
private theorem feed_normal {p : EscapeParser} (hp : p.state = .normal) {b : Byte} (hb : b ≠ 0x1B) :
    (p.feed b).1.state = .normal := by
  simp only [EscapeParser.feed, hp, if_neg hb]
  split
  · rfl
  · split
    · split <;> simp [hp]
    · rfl

private theorem normal_params {ps : Bytes} (hps : ∀ b ∈ ps, IsParam b) {p : EscapeParser} (hp : p.state = .normal) :
    (feedAll EscapeParser.feed p ps).1.state = .normal := by
  have hstep : ∀ (q : EscapeParser) (b : Byte), q.state = .normal → IsParam b → (q.feed b).1.state = .normal :=
    fun q b hq hb => feed_normal hq (param_ne b hb).1
  exact feedAll_invariant hstep hp hps

/-- In the normal state a final byte is a character. -/
private theorem final_normal {p : EscapeParser} (hp : p.state = .normal) {b : Byte} (hb : IsFinal b) :
    (p.feed b).2 = some (.char b) := by
  obtain ⟨h1, h2, h3, -⟩ := final_ne b hb
  simp only [EscapeParser.feed, hp, if_neg h1, if_neg h2, if_neg h3]
  exact plainKey_of_final b hb

/-- The states in which a final byte ends a sequence. -/
private def Open (q : EscapeParser) : Prop :=
  q.state = .escBracket ∨ q.state = .escBracket1Sc ∨ (∃ n, q.state = .escBracketParam n) ∨
    ∃ m, q.state = .escBracket1ScN m

/-- A final byte ends a sequence that is still open, and its key is no character. -/
private theorem final_open {q : EscapeParser} (hq : Open q) {b : Byte} (hb : IsFinal b) :
    (q.feed b).1.state = .normal ∧ ∀ c, (q.feed b).2 ≠ some (.char c) := by
  obtain ⟨-, -, -, h4, h5⟩ := final_ne b hb
  rcases hq with h | h | ⟨n, h⟩ | ⟨m, h⟩
  · simp only [EscapeParser.feed, h, if_neg h5, true_and]
    exact arrowKey_ne_char b
  · simp only [EscapeParser.feed, h, if_neg h4]
    split <;> simp
  · simp only [EscapeParser.feed, h, true_and]
    intro c
    split
    · exact tildeKey_ne_char n c
    · simp
  · simp only [EscapeParser.feed, h]
    split
    · simp
    · split <;> simp

/-- The decoder after `ESC [`. -/
private def opened : EscapeParser := ⟨.escBracket, false⟩

private theorem feedAll_csi {p : EscapeParser} (hp : p.state = .normal) (ps : Bytes) (f : Byte) :
    feedAll EscapeParser.feed p ([0x1B, 0x5B] ++ ps ++ [f]) =
      (((feedAll EscapeParser.feed opened ps).1.feed f).1,
        none :: none :: ((feedAll EscapeParser.feed opened ps).2 ++ [((feedAll EscapeParser.feed opened ps).1.feed f).2])) := by
  have hopen : feedAll EscapeParser.feed p [0x1B, 0x5B] = (opened, [none, none]) := by
    simp [EscapeParser.feed, hp, opened]
  rw [feedAll_snoc, feedAll_append, hopen]
  rfl

/-- Known parameters give no key and leave the sequence open. -/
private theorem params_known {ps : Bytes} (h : Known ps) :
    Open (feedAll EscapeParser.feed opened ps).1 ∧ ∀ k ∈ (feedAll EscapeParser.feed opened ps).2, k = none := by
  rcases h with rfl | ⟨d, h1, h2, rfl⟩ | rfl
  · exact ⟨.inl rfl, by simp⟩
  · simp only [feedAll_cons, feedAll_nil, EscapeParser.feed, opened, if_pos (And.intro h1 h2)]
    by_cases hd : d = 0x31
    · rw [if_pos hd]
      exact ⟨.inr (.inl rfl), by simp⟩
    · rw [if_neg hd]
      exact ⟨.inr (.inr (.inl ⟨_, rfl⟩)), by simp⟩
  · exact ⟨.inr (.inr (.inr ⟨0, rfl⟩)), by simp [EscapeParser.feed, opened]⟩

/-- After other parameters the decoder is back in its normal state before the sequence ends. -/
private theorem params_unknown {ps : Bytes} (hps : ∀ b ∈ ps, IsParam b) (h : ¬Known ps) :
    (feedAll EscapeParser.feed opened ps).1.state = .normal := by
  rcases ps with _ | ⟨a, ps⟩
  · exact absurd (.inl rfl) h
  obtain ⟨-, hbs⟩ := List.forall_mem_cons.1 hps
  rw [feedAll_cons]
  by_cases ha : 0x31 ≤ a.toNat ∧ a.toNat ≤ 0x39
  · rcases ps with _ | ⟨b, ps⟩
    · exact absurd (.inr (.inl ⟨a, ha.1, ha.2, rfl⟩)) h
    obtain ⟨hb, hcs⟩ := List.forall_mem_cons.1 hbs
    have hb7E : b ≠ 0x7E := (param_ne b hb).2.1
    have hfeed : (opened.feed a).1 = ⟨if a = 0x31 then .escBracket1Sc else .escBracketParam (a.toNat - 0x30), false⟩ := by
      simp only [EscapeParser.feed, opened, if_pos ha]
      split <;> rfl
    rw [feedAll_cons, hfeed]
    by_cases ha1 : a = 0x31
    · subst ha1
      rw [if_pos rfl]
      by_cases hb1 : b = 0x3B
      · subst hb1
        rcases ps with _ | ⟨c, ps⟩
        · exact absurd (.inr (.inr rfl)) h
        obtain ⟨hc, hds⟩ := List.forall_mem_cons.1 hcs
        obtain ⟨-, -, hc43, hc44⟩ := param_ne c hc
        refine normal_params hds ?_
        show (EscapeParser.feed ⟨.escBracket1ScN 0, false⟩ c).1.state = .normal
        simp only [EscapeParser.feed, if_neg hc43, if_neg hc44]
      · refine normal_params hcs ?_
        simp only [EscapeParser.feed, if_neg hb7E, if_neg hb1]
    · rw [if_neg ha1]
      exact normal_params hcs rfl
  · refine normal_params hbs ?_
    simp only [EscapeParser.feed, opened, if_neg ha]

/-! ### Streams -/

/-- After an item the decoder is in its normal state. -/
theorem Item.state_normal {p : EscapeParser} (hp : p.state = .normal) (item : Item) :
    (feedAll EscapeParser.feed p item.bytes).1.state = .normal := by
  cases item with
  | plain b hb => exact feed_normal hp hb
  | csi params final hparams hfinal =>
    rw [Item.bytes, feedAll_csi hp]
    by_cases h : Shell.Known params
    · exact (final_open (params_known h).1 hfinal).1
    · exact feed_normal (params_unknown hparams h) (final_ne final hfinal).1
  | ss3 x => simp [Item.bytes, EscapeParser.feed, hp]

theorem Item.decoded_iff {p : EscapeParser} (hp : p.state = .normal) (item : Item) : item.Decoded p ↔ item.Known := by
  cases item with
  | plain b hb => exact Iff.rfl
  | csi params final hparams hfinal =>
    rw [Item.Decoded, Item.Known, Quiet, Item.bytes, feedAll_csi hp]
    simp only [← List.cons_append, List.dropLast_concat, List.getLast?_concat]
    constructor
    · rintro ⟨⟨-, -, hchar⟩, -⟩
      by_contra h
      exact hchar final (by rw [final_normal (params_unknown hparams h) hfinal])
    · intro h
      obtain ⟨hopen, hnone⟩ := params_known h
      obtain ⟨hstate, hchar⟩ := final_open hopen hfinal
      refine ⟨⟨hstate, by simpa using hnone, fun b hb => hchar b (by simpa using hb)⟩, ?_⟩
      rintro m hm rfl
      simp [Shell.Known] at h
  | ss3 x =>
    simp only [Item.Decoded, Item.Known, iff_true]
    refine ⟨Item.state_normal hp _, ?_, ?_⟩
    · simp [Item.bytes, EscapeParser.feed, hp]
    · intro b
      have := arrowKey_ne_char x b
      simpa [Item.bytes, EscapeParser.feed, hp] using this

/-- A stream is decoded as it should be exactly if every sequence in it has parameters the decoder knows. -/
theorem stream_decoded_iff (lastCr : Bool) (items : List Item) :
    StreamDecoded ⟨.normal, lastCr⟩ items ↔ ∀ item ∈ items, item.Known := by
  have hstream : ∀ (its : List Item) (p : EscapeParser), p.state = .normal →
      (StreamDecoded p its ↔ ∀ item ∈ its, item.Known) := by
    intro its
    induction its with
    | nil => simp [StreamDecoded]
    | cons item rest ih =>
      intro p hp
      rw [StreamDecoded, Item.decoded_iff hp, ih _ (Item.state_normal hp item), List.forall_mem_cons]
  exact hstream items _ rfl

/-- The bytes of Ctrl+Right, `ESC [ 1 ; 5 C`, type the character `C`. -/
theorem ctrl_right_not_decoded : (feedAll EscapeParser.feed .new [0x1B, 0x5B, 0x31, 0x3B, 0x35, 0x43]).2.getLast? =
      some (some (.char 0x43)) ∧
    ¬StreamDecoded .new [.csi [0x31, 0x3B, 0x35] 0x43 (by decide) (by decide)] := by
  refine ⟨by decide +kernel, fun h => ?_⟩
  exact h.1.1.2.2 0x43 (by decide +kernel)

end Rost.Shell
