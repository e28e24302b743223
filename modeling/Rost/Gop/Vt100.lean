import Rost.Basic
import Rost.Lib.Transducer

/-!
# The escape sequences of the terminal

The terminal decodes a byte at a time.  A control sequence is `ESC [`, decimal parameters with semicolons between them, and
a final byte.  The parser counts a parameter when its first digit comes or a semicolon behind it, so that a first parameter
that is empty is not counted, and it goes on adding digits to the eighth.  It knows letters, `@` and a backquote as final
bytes and passes over all others; and it applies the parameters of the graphic renditions 38 and 48 as renditions of
their own.  Everything else means what it says (`sequence_iff`).
-/

namespace Rost.Gop

open Lib (feedAll feedAll_append feedAll_cons feedAll_nil)

abbrev Bytes := List Byte

/-- `0xAA_RR_GG_BB` -/
abbrev Argb := BitVec 32

def u32Max : Nat := 2 ^ 32 - 1

/-! ### Colours -/

/-- `PALETTE` -/
def paletteTable : List Argb :=
  [0xFF000000, 0xFF800000, 0xFF008000, 0xFF808000, 0xFF000080, 0xFF800080, 0xFF008080, 0xFFC0C0C0, 0xFF808080, 0xFFFF5555,
    0xFF55FF55, 0xFFFFFF55, 0xFF5555FF, 0xFFFF55FF, 0xFF55FFFF, 0xFFFFFFFF]

/-- `PALETTE[i]` -/
def palette (i : Nat) : Argb := paletteTable.getD i 0

def defaultFg : Nat := 7
def defaultBg : Nat := 0

/-! ### The parser -/

inductive Vt100Event where
  | char (b : Byte)
  | carriageReturn | lineFeed | tab | backspace
  | cursorUp (n : Nat)
  | cursorDown (n : Nat)
  | cursorRight (n : Nat)
  | cursorLeft (n : Nat)
  | cursorNextLine (n : Nat)
  | cursorPrevLine (n : Nat)
  | cursorColumn (col : Nat)
  | cursorPosition (row col : Nat)
  | saveCursor | restoreCursor
  | eraseDisplay (mode : Nat)
  | eraseLine (mode : Nat)
  | deleteChars (n : Nat)
  | scrollUp (n : Nat)
  | scrollDown (n : Nat)
  | setFg (argb : Argb)
  | setBg (argb : Argb)
  | reset
deriving DecidableEq

inductive State where
  | normal | esc | csi
deriving DecidableEq

/-- The position that the parser keeps itself is never read, and left out. -/
structure Vt100 where
  state : State
  params : Vector Nat 8
  nparam : Nat
  flag : Byte
  fg : Nat
  bg : Nat
  bold : Bool
  reverse : Bool
deriving DecidableEq

namespace Vt100

def new : Vt100 := ⟨.normal, .replicate 8 0, 0, 0, defaultFg, defaultBg, false, false⟩

def normal (v : Vt100) (b : Byte) : Vt100 × List Vt100Event :=
  if b = 0x1B then ({ v with state := .esc }, [])
  else if b = 0x0D then (v, [.carriageReturn])
  else if b = 0x0A then (v, [.lineFeed])
  else if b = 0x09 then (v, [.tab])
  else if b = 0x08 then (v, [.backspace])
  else if b = 0x07 then (v, [])
  else (v, [.char b])

def escape (v : Vt100) (b : Byte) : Vt100 × List Vt100Event :=
  if b = 0x5B then ({ v with state := .csi, params := .replicate 8 0, nparam := 0, flag := 0 }, [])
  else if b = 0x37 then ({ v with state := .normal }, [.saveCursor])
  else if b = 0x38 then ({ v with state := .normal }, [.restoreCursor])
  else if b = 0x63 then ({ v with state := .normal }, [.reset])
  else ({ v with state := .normal }, [])

/-- A parameter, or what stands for none and for zero. -/
def p (v : Vt100) (i default : Nat) : Nat :=
  if i < v.nparam ∧ v.params.getD i 0 ≠ 0 then v.params.getD i 0 else default

def applySgr (v : Vt100) (code : Nat) : Vt100 × List Vt100Event :=
  if code = 0 then
    ({ v with fg := defaultFg, bg := defaultBg, bold := false, reverse := false },
      [.setFg (palette defaultFg), .setBg (palette defaultBg)])
  else if code = 1 then ({ v with bold := true }, [.setFg (palette (if v.fg < 8 then v.fg + 8 else v.fg))])
  else if code = 2 ∨ code = 22 then ({ v with bold := false }, [])
  else if code = 7 then ({ v with reverse := true }, [.setFg (palette v.bg), .setBg (palette v.fg)])
  else if code = 27 then ({ v with reverse := false }, [.setFg (palette v.fg), .setBg (palette v.bg)])
  else if 30 ≤ code ∧ code ≤ 37 then
    let fg := min (code - 30 + if v.bold then 8 else 0) 15
    ({ v with fg := fg }, [.setFg (palette fg)])
  else if code = 39 then ({ v with fg := defaultFg, bold := false }, [.setFg (palette defaultFg)])
  else if 40 ≤ code ∧ code ≤ 47 then ({ v with bg := code - 40 }, [.setBg (palette (code - 40))])
  else if code = 49 then ({ v with bg := defaultBg }, [.setBg (palette defaultBg)])
  else if 90 ≤ code ∧ code ≤ 97 then
    ({ v with fg := min (code - 90 + 8) 15 }, [.setFg (palette (min (code - 90 + 8) 15))])
  else if 100 ≤ code ∧ code ≤ 107 then
    ({ v with bg := min (code - 100 + 8) 15 }, [.setBg (palette (min (code - 100 + 8) 15))])
  else (v, [])

/-- The codes that `dispatch` applies for the final byte `m`. -/
def sgrCodes (v : Vt100) : List Nat := v.params.toList.take (if v.nparam = 0 then 1 else v.nparam)

def applyAll (v : Vt100) : List Nat → Vt100 × List Vt100Event
  | [] => (v, [])
  | code :: codes =>
    let out := (v.applySgr code).1.applyAll codes
    (out.1, (v.applySgr code).2 ++ out.2)

def dispatch (v : Vt100) (final : Byte) : Vt100 × List Vt100Event :=
  match final.toNat with
  | 0x41 => (v, [.cursorUp (v.p 0 1)])
  | 0x42 => (v, [.cursorDown (v.p 0 1)])
  | 0x43 => (v, [.cursorRight (v.p 0 1)])
  | 0x44 => (v, [.cursorLeft (v.p 0 1)])
  | 0x45 => (v, [.cursorNextLine (v.p 0 1)])
  | 0x46 => (v, [.cursorPrevLine (v.p 0 1)])
  | 0x47 => (v, [.cursorColumn (v.p 0 1 - 1)])
  | 0x48 | 0x66 => (v, [.cursorPosition (v.p 0 1 - 1) (v.p 1 1 - 1)])
  | 0x73 => (v, [.saveCursor])
  | 0x75 => (v, [.restoreCursor])
  | 0x4A => (v, [.eraseDisplay (v.p 0 0)])
  | 0x4B => (v, [.eraseLine (v.p 0 0)])
  | 0x50 => (v, [.deleteChars (v.p 0 1)])
  | 0x53 => (v, [.scrollUp (v.p 0 1)])
  | 0x54 => (v, [.scrollDown (v.p 0 1)])
  | 0x6D => v.applyAll v.sgrCodes
  | _ => (v, [])

/-- The bytes that end a sequence: letters, `@` and a backquote. -/
def isFinal (b : Byte) : Bool :=
  (0x41 ≤ b.toNat && b.toNat ≤ 0x5A) || (0x61 ≤ b.toNat && b.toNat ≤ 0x7A) || b == 0x40 || b == 0x60

def csiCollect (v : Vt100) (b : Byte) : Vt100 × List Vt100Event :=
  if 0x30 ≤ b.toNat ∧ b.toNat ≤ 0x39 then
    let nparam := if v.nparam = 0 then 1 else v.nparam
    let idx := nparam - 1
    if idx < 8 then
      let value := min (min (v.params.getD idx 0 * 10) u32Max + (b.toNat - 0x30)) u32Max
      ({ v with nparam := nparam, params := v.params.setIfInBounds idx value }, [])
    else ({ v with nparam := nparam }, [])
  else if b = 0x3B then
    let nparam := if v.nparam < 8 then v.nparam + 1 else v.nparam
    ({ v with nparam := nparam, params := if nparam < 8 then v.params.setIfInBounds nparam 0 else v.params }, [])
  else if b = 0x3F ∨ b = 0x3E ∨ b = 0x21 then ({ v with flag := b }, [])
  else if isFinal b then ({ (v.dispatch b).1 with state := .normal }, (v.dispatch b).2)
  else (v, [])

/-- A byte, with the events that it causes. -/
def feed (v : Vt100) (b : Byte) : Vt100 × List Vt100Event :=
  match v.state with
  | .normal => v.normal b
  | .esc => v.escape b
  | .csi => v.csiCollect b

end Vt100

/-! ### What a sequence says -/

/-- A parameter as it is written. -/
abbrev Digits := List (Fin 10)

/-- The number, or the largest one. -/
def value (q : Digits) : Nat := min (q.foldl (fun n d => 10 * n + d.val) 0) u32Max

def digitByte (d : Fin 10) : Byte := BitVec.ofNat 8 (0x30 + d.val)

def paramBytes (q : Digits) (qs : List Digits) : Bytes := q.map digitByte ++ qs.flatMap fun q => 0x3B :: q.map digitByte

/-- A final byte, 0x40 to 0x7E. -/
abbrev FinalByte := { b : Byte // 0x40 ≤ b.toNat ∧ b.toNat ≤ 0x7E }

/-- `ESC [`, the parameters and the final byte -/
def sequenceBytes (q : Digits) (qs : List Digits) (final : FinalByte) : Bytes :=
  0x1B :: 0x5B :: (paramBytes q qs ++ [final.val])

/-- The first eight parameters. -/
def written (q : Digits) (qs : List Digits) : List Nat := ((q :: qs).map value).take 8

/-- How many parameters behind a code belong to it: `5` and an index, or `2` and three components. -/
def subParams (code : Nat) (rest : List Nat) : Nat :=
  if code = 38 ∨ code = 48 then if rest.head? = some 5 then 2 else if rest.head? = some 2 then 4 else 0 else 0

/-- The codes in a list whose first `k` parameters belong to a code before it. -/
def ownCodes : Nat → List Nat → List Nat
  | _, [] => []
  | 0, code :: codes => code :: ownCodes (subParams code codes) codes
  | k + 1, _ :: codes => ownCodes k codes

def Vt100.withParams (v : Vt100) (ps : List Nat) : Vt100 :=
  { v with params := .ofFn fun i => ps.getD i 0, nparam := min ps.length 8 }

/-- The events that a sequence stands for. -/
def meantEvents (v : Vt100) (q : Digits) (qs : List Digits) (final : FinalByte) : List Vt100Event :=
  if final.val = 0x6D then (v.applyAll (ownCodes 0 (written q qs))).2
  else ((v.withParams (written q qs)).dispatch final.val).2

/-- The sequence causes the events that it stands for, the parser is back in its normal state, and the codes that have been
applied are those that stand for themselves. -/
structure Means (v : Vt100) (q : Digits) (qs : List Digits) (final : FinalByte) : Prop where
  events : (feedAll Vt100.feed v (sequenceBytes q qs final)).2.flatten = meantEvents v q qs final
  back : (feedAll Vt100.feed v (sequenceBytes q qs final)).1.state = .normal
  codes : final.val = 0x6D →
    (feedAll Vt100.feed v (0x1B :: 0x5B :: paramBytes q qs)).1.sgrCodes = ownCodes 0 (written q qs)

/-! ### What a sequence must be -/

/-- Some parameter of the list belongs to a code before it. -/
def HasSub (codes : List Nat) : Prop := ∃ c m, [c, m] <:+: codes ∧ (c = 38 ∨ c = 48) ∧ (m = 5 ∨ m = 2)

/-- Behind an empty first parameter the others are taken for those before them, which makes no difference. -/
def ShiftHarmless (final : Byte) (qs : List Digits) : Prop :=
  match final.toNat with
  | 0x48 | 0x66 => value (qs.getD 0 []) ≤ 1 ∧ value (qs.getD 1 []) ≤ 1
  | 0x4A | 0x4B => value (qs.getD 0 []) = 0
  | 0x41 | 0x42 | 0x43 | 0x44 | 0x45 | 0x46 | 0x47 | 0x50 | 0x53 | 0x54 => value (qs.getD 0 []) ≤ 1
  | _ => True

/-- The final byte is one that the parser knows.  No code of a graphic rendition has sub-parameters, the digits behind the
eighth parameter do not change it, and the first parameter is not empty, unless it is the only one or all of at least nine
are zero.  For other final bytes the first parameter is not empty, or the parameters that are used are as good as none. -/
def Straight (q : Digits) (qs : List Digits) (final : FinalByte) : Prop :=
  Vt100.isFinal final.val ∧
    if final.val = 0x6D then
      ¬ HasSub (written q qs) ∧
        if q = [] then qs = [] ∨ (8 ≤ qs.length ∧ ∀ p ∈ qs, value p = 0)
        else value (qs.drop 6).flatten = value (qs.getD 6 [])
    else q ≠ [] ∨ ShiftHarmless final.val qs

/-! ### Numbers -/

private theorem value_snoc (q : Digits) (d : Fin 10) :
    value (q ++ [d]) = min (min (value q * 10) u32Max + d.val) u32Max := by
  unfold value
  rw [List.foldl_append, List.foldl_cons, List.foldl_nil]
  omega

@[simp] private theorem value_nil : value [] = 0 := rfl

private theorem value_eq_zero_iff {q : Digits} : value q = 0 ↔ ∀ d ∈ q, d = 0 := by
  have hfold : ∀ n, q.foldl (fun n d => 10 * n + d.val) n = 0 ↔ n = 0 ∧ ∀ d ∈ q, d = 0 := by
    induction q with
    | nil => simp
    | cons d q ih =>
      intro n
      rw [List.foldl_cons, ih, List.forall_mem_cons, Fin.ext_iff]
      constructor
      · rintro ⟨h, hq⟩
        exact ⟨by omega, by simp; omega, hq⟩
      · rintro ⟨rfl, hd, hq⟩
        exact ⟨by simpa using hd, hq⟩
  have hzero : value q = 0 ↔ q.foldl (fun n d => 10 * n + d.val) 0 = 0 := by
    unfold value u32Max
    omega
  rw [hzero, hfold, and_iff_right rfl]

private theorem value_flatten_eq_zero_iff {qs : List Digits} : value qs.flatten = 0 ↔ ∀ p ∈ qs, value p = 0 := by
  simp only [value_eq_zero_iff, List.mem_flatten]
  constructor
  · exact fun h p hp d hd => h d ⟨p, hp, hd⟩
  · rintro h d ⟨p, hp, hd⟩
    exact h p hp d hd

/-! ### Collecting parameters -/

/-- What the parser makes of parameters: the digits behind the eighth are added to it. -/
private def stored (L : List Digits) (i : Nat) : Nat := if i < 7 then value (L.getD i []) else value (L.drop 7).flatten

/-- The parameters that are counted. -/
private def counted (q : Digits) (qs : List Digits) : List Digits := (if q = [] then [] else [q]) ++ qs

/-- The parsers show text alike. -/
structure Vt100.Alike (v w : Vt100) : Prop where
  fg : v.fg = w.fg
  bg : v.bg = w.bg
  bold : v.bold = w.bold

/-- The parser has read these parameters. -/
private structure Holds (v w : Vt100) (L : List Digits) : Prop where
  state : w.state = .csi
  nparam : w.nparam = min L.length 8
  params : ∀ i < 8, w.params.getD i 0 = stored L i
  alike : v.Alike w

private theorem digitByte_range (d : Fin 10) :
    (digitByte d).toNat = 0x30 + d.val ∧ 0x30 ≤ (digitByte d).toNat ∧ (digitByte d).toNat ≤ 0x39 := by
  have hd := d.isLt
  have hnat : (digitByte d).toNat = 0x30 + d.val := by
    rw [digitByte, BitVec.toNat_ofNat, Nat.mod_eq_of_lt (by omega)]
  omega

private theorem getD_setIfInBounds (ps : Vector Nat 8) {i j : Nat} (x : Nat) (hj : j < 8) :
    (ps.setIfInBounds i x).getD j 0 = if j = i then x else ps.getD j 0 := by
  have hget : ∀ qs : Vector Nat 8, qs.getD j 0 = qs[j] := by
    intro qs
    rw [Vector.getD, Array.getD, dif_pos (by simpa using hj)]
    rfl
  rw [hget, hget, Vector.getElem_setIfInBounds]
  simp only [eq_comm]

private theorem stored_snoc (L : List Digits) (q : Digits) {i : Nat} (hlt : i < 8) (hi : i ≠ min L.length 7) :
    stored (L ++ [q]) i = stored (L ++ [[]]) i := by
  unfold stored
  by_cases hlow : i < 7
  · rw [if_pos hlow, if_pos hlow, List.getD_eq_getElem?_getD, List.getD_eq_getElem?_getD]
    by_cases hin : i < L.length
    · rw [List.getElem?_append_left hin, List.getElem?_append_left hin]
    · have hout : L.length + 1 ≤ i := by omega
      rw [List.getElem?_eq_none (by simpa using hout), List.getElem?_eq_none (by simpa using hout)]
  · rw [if_neg hlow, if_neg hlow, List.drop_eq_nil_of_le (by simp; omega), List.drop_eq_nil_of_le (by simp; omega)]

private theorem stored_last (L : List Digits) :
    ∃ p : Digits, ∀ q, stored (L ++ [q]) (min L.length 7) = value (p ++ q) := by
  unfold stored
  by_cases hlow : L.length < 7
  · refine ⟨[], fun q => ?_⟩
    rw [Nat.min_eq_left (by omega), if_pos hlow, List.getD_eq_getElem?_getD, List.getElem?_concat_length]
    rfl
  · refine ⟨(L.drop 7).flatten, fun q => ?_⟩
    rw [Nat.min_eq_right (by omega), if_neg (by omega), List.drop_append_of_le_length (by omega), List.flatten_append]
    simp

private theorem feed_csi {w : Vt100} (hstate : w.state = .csi) (b : Byte) : w.feed b = w.csiCollect b := by
  rw [Vt100.feed, hstate]

private theorem feed_digit {w : Vt100} (hstate : w.state = .csi) (d : Fin 10) {n : Nat}
    (hn : (if w.nparam = 0 then 1 else w.nparam) = n + 1) (hlt : n < 8) : w.feed (digitByte d) =
      ({ w with
          nparam := n + 1
          params := w.params.setIfInBounds n (min (min (w.params.getD n 0 * 10) u32Max + d.val) u32Max) }, []) := by
  obtain ⟨hval, hrange⟩ := digitByte_range d
  rw [feed_csi hstate]
  simp only [Vt100.csiCollect]
  rw [if_pos hrange, hn, Nat.add_sub_cancel, if_pos hlt, hval, Nat.add_sub_cancel_left]

/-- A digit behind a parameter. -/
private theorem Holds.digit {v w : Vt100} {L : List Digits} {q : Digits} (h : Holds v w (L ++ [q])) (d : Fin 10) :
    Holds v (w.feed (digitByte d)).1 (L ++ [q ++ [d]]) ∧ (w.feed (digitByte d)).2 = [] := by
  have hnparam := h.nparam
  rw [List.length_append, List.length_singleton] at hnparam
  have hn : (if w.nparam = 0 then 1 else w.nparam) = min L.length 7 + 1 := by
    rw [if_neg (by omega)]
    omega
  rw [feed_digit h.state d hn (by omega)]
  refine ⟨⟨h.state, ?_, fun i hi => ?_, h.alike.1, h.alike.2, h.alike.3⟩, rfl⟩
  · simp only [List.length_append, List.length_singleton]
    omega
  · simp only
    rw [getD_setIfInBounds _ _ hi]
    obtain ⟨p, hlast⟩ := stored_last L
    by_cases heq : i = min L.length 7
    · rw [if_pos heq, h.params _ (by omega), heq, hlast, hlast, ← List.append_assoc, value_snoc]
    · rw [if_neg heq, h.params i hi, stored_snoc L _ hi heq, ← stored_snoc L _ hi heq]

/-- The first digit of a first parameter counts it. -/
private theorem Holds.first {v w : Vt100} (h : Holds v w []) (d : Fin 10) :
    Holds v (w.feed (digitByte d)).1 [[d]] ∧ (w.feed (digitByte d)).2 = [] := by
  have hn : (if w.nparam = 0 then 1 else w.nparam) = 0 + 1 := by rw [h.nparam]; rfl
  have hzero : ∀ i < 8, w.params.getD i 0 = stored [[]] i := by
    intro i hi
    rw [h.params i hi]
    unfold stored
    by_cases hlow : i < 7
    · rw [if_pos hlow, if_pos hlow]
      cases i <;> rfl
    · rw [if_neg hlow, if_neg hlow]
      rfl
  rw [feed_digit h.state d hn (by decide)]
  refine ⟨⟨h.state, rfl, fun i hi => ?_, h.alike.1, h.alike.2, h.alike.3⟩, rfl⟩
  simp only
  rw [getD_setIfInBounds _ _ hi]
  by_cases heq : i = 0
  · have hvalue : stored [[d]] 0 = value ([] ++ [d]) := rfl
    rw [if_pos heq, heq, hvalue, value_snoc, hzero 0 (by decide)]
    rfl
  · have hsnoc : stored [[d]] i = stored [[]] i := stored_snoc [] [d] hi (by simpa using heq)
    rw [if_neg heq, hzero i hi, hsnoc]

/-- A semicolon begins a parameter. -/
private theorem Holds.sep {v w : Vt100} {L : List Digits} (h : Holds v w L) :
    Holds v (w.feed 0x3B).1 (L ++ [[]]) ∧ (w.feed 0x3B).2 = [] := by
  have hstored : ∀ i < 8, stored (L ++ [[]]) i = stored L i := by
    intro i hi
    unfold stored
    by_cases hlow : i < 7
    · rw [if_pos hlow, if_pos hlow, List.getD_eq_getElem?_getD, List.getD_eq_getElem?_getD]
      rcases Nat.lt_trichotomy i L.length with hlt | rfl | hgt
      · rw [List.getElem?_append_left hlt]
      · rw [List.getElem?_concat_length, List.getElem?_eq_none (le_refl _)]
        rfl
      · rw [List.getElem?_eq_none (by simp; omega), List.getElem?_eq_none (by omega)]
    · rw [if_neg hlow, if_neg hlow, List.drop_append, List.flatten_append]
      congr 1
      rcases Nat.lt_or_ge 7 L.length with hlt | hge
      · simp [Nat.sub_eq_zero_of_le (Nat.le_of_lt hlt)]
      · rw [List.drop_eq_nil_of_le hge]
        rcases hk : 7 - L.length with _ | k <;> simp
  -- the place that is set to zero has not been written before
  have hzero : ∀ i, L.length ≤ i → i < 8 → stored L i = 0 := by
    intro i hle hi
    unfold stored
    split
    · rw [List.getD_eq_getElem?_getD, List.getElem?_eq_none hle]
      rfl
    · rw [List.drop_eq_nil_of_le (by omega)]
      rfl
  have hfeed : w.feed 0x3B =
      ({ w with
          nparam := min (L.length + 1) 8
          params := if min (L.length + 1) 8 < 8 then w.params.setIfInBounds (min (L.length + 1) 8) 0 else w.params },
        []) := by
    have hstep : (if w.nparam < 8 then w.nparam + 1 else w.nparam) = min (L.length + 1) 8 := by
      rw [h.nparam]
      split <;> omega
    rw [feed_csi h.state]
    simp only [Vt100.csiCollect]
    rw [if_neg (by decide), if_pos trivial, hstep]
  rw [hfeed]
  refine ⟨⟨h.state, by simp, fun i hi => ?_, h.alike.1, h.alike.2, h.alike.3⟩, rfl⟩
  simp only
  rw [hstored i hi]
  split
  · rw [getD_setIfInBounds _ _ hi]
    split
    · exact (hzero i (by omega) hi).symm
    · exact h.params i hi
  · exact h.params i hi

private theorem Holds.digits {v w : Vt100} {L : List Digits} {q : Digits} (h : Holds v w (L ++ [q])) (ds : Digits) :
    Holds v (feedAll Vt100.feed w (ds.map digitByte)).1 (L ++ [q ++ ds]) ∧
      (feedAll Vt100.feed w (ds.map digitByte)).2.flatten = [] := by
  induction ds generalizing w q with
  | nil => exact ⟨by simpa using h, rfl⟩
  | cons d ds ih =>
    obtain ⟨hnext, hquiet⟩ := h.digit d
    obtain ⟨hrest, hnone⟩ := ih hnext
    rw [List.map_cons, feedAll_cons]
    refine ⟨by simpa using hrest, ?_⟩
    rw [List.flatten_cons, hquiet, hnone]
    rfl

private theorem Holds.params_behind {v w : Vt100} {L : List Digits} (h : Holds v w L) (qs : List Digits) :
    Holds v (feedAll Vt100.feed w (qs.flatMap fun q => 0x3B :: q.map digitByte)).1 (L ++ qs) ∧
      (feedAll Vt100.feed w (qs.flatMap fun q => 0x3B :: q.map digitByte)).2.flatten = [] := by
  induction qs generalizing w L with
  | nil => exact ⟨by simpa using h, rfl⟩
  | cons q qs ih =>
    obtain ⟨hsep, hquiet⟩ := h.sep
    obtain ⟨hdigits, hdone⟩ := hsep.digits q
    obtain ⟨hrest, hnone⟩ := ih hdigits
    rw [List.flatMap_cons, List.cons_append, feedAll_cons, feedAll_append]
    refine ⟨by simpa using hrest, ?_⟩
    simp only [List.flatten_cons, List.flatten_append, hquiet, hdone, hnone, List.append_nil]

/-- What the parser has read when the final byte comes. -/
private theorem holds_params (v : Vt100) (hv : v.state = .normal) (q : Digits) (qs : List Digits) :
    Holds v (feedAll Vt100.feed v (0x1B :: 0x5B :: paramBytes q qs)).1 (counted q qs) ∧
      (feedAll Vt100.feed v (0x1B :: 0x5B :: paramBytes q qs)).2.flatten = [] := by
  have hesc : v.feed 0x1B = ({ v with state := .esc }, []) := by
    have hnormal : v.feed 0x1B = v.normal 0x1B := by rw [Vt100.feed, hv]
    rw [hnormal, Vt100.normal, if_pos rfl]
  have hopen : Vt100.feed { v with state := .esc } 0x5B =
      ({ v with state := .csi, params := .replicate 8 0, nparam := 0, flag := 0 }, []) := rfl
  have hempty : Holds v { v with state := .csi, params := .replicate 8 0, nparam := 0, flag := 0 } [] := by
    refine ⟨rfl, rfl, fun i hi => ?_, rfl, rfl, rfl⟩
    have hzero : stored [] i = 0 := by unfold stored; split <;> rfl
    rw [hzero]
    simp [Vector.getD, hi]
  have hfirst : Holds v (feedAll Vt100.feed { v with state := .csi, params := .replicate 8 0, nparam := 0, flag := 0 }
      (q.map digitByte)).1 (if q = [] then [] else [q]) ∧ (feedAll Vt100.feed
        { v with state := .csi, params := .replicate 8 0, nparam := 0, flag := 0 } (q.map digitByte)).2.flatten = [] := by
    cases q with
    | nil => exact ⟨hempty, rfl⟩
    | cons d ds =>
      obtain ⟨hnext, hquiet⟩ := hempty.first d
      obtain ⟨hrest, hnone⟩ := Holds.digits (L := []) hnext ds
      rw [List.map_cons, feedAll_cons, if_neg (List.cons_ne_nil d ds)]
      refine ⟨hrest, ?_⟩
      rw [List.flatten_cons, hquiet, hnone]
      rfl
  obtain ⟨hbehind, hnone⟩ := hfirst.1.params_behind qs
  rw [feedAll_cons, hesc, feedAll_cons, hopen, paramBytes, feedAll_append]
  refine ⟨hbehind, ?_⟩
  simp only [List.flatten_cons, List.flatten_append, hfirst.2, hnone, List.append_nil]

/-! ### What a final byte makes of the parameters -/

/-- What a code is about. -/
inductive Sgr where
  | clear | bold | dim | reverse | unreverse
  | foreground (i : Nat)
  | defaultForeground
  | brightForeground (i : Nat)
  | background (i : Nat)
  | other
deriving DecidableEq

def Sgr.ofCode (code : Nat) : Sgr :=
  if code = 0 then .clear
  else if code = 1 then .bold
  else if code = 2 ∨ code = 22 then .dim
  else if code = 7 then .reverse
  else if code = 27 then .unreverse
  else if 30 ≤ code ∧ code ≤ 37 then .foreground (code - 30)
  else if code = 39 then .defaultForeground
  else if 40 ≤ code ∧ code ≤ 47 then .background (code - 40)
  else if code = 49 then .background defaultBg
  else if 90 ≤ code ∧ code ≤ 97 then .brightForeground (min (code - 90 + 8) 15)
  else if 100 ≤ code ∧ code ≤ 107 then .background (min (code - 100 + 8) 15)
  else .other

/-- The new attributes and the events of a code. -/
def Vt100.applyKind (v : Vt100) : Sgr → Vt100 × List Vt100Event
  | .clear => ({ v with fg := defaultFg, bg := defaultBg, bold := false, reverse := false },
      [.setFg (palette defaultFg), .setBg (palette defaultBg)])
  | .bold => ({ v with bold := true }, [.setFg (palette (if v.fg < 8 then v.fg + 8 else v.fg))])
  | .dim => ({ v with bold := false }, [])
  | .reverse => ({ v with reverse := true }, [.setFg (palette v.bg), .setBg (palette v.fg)])
  | .unreverse => ({ v with reverse := false }, [.setFg (palette v.fg), .setBg (palette v.bg)])
  | .foreground i => ({ v with fg := min (i + if v.bold then 8 else 0) 15 },
      [.setFg (palette (min (i + if v.bold then 8 else 0) 15))])
  | .defaultForeground => ({ v with fg := defaultFg, bold := false }, [.setFg (palette defaultFg)])
  | .brightForeground i => ({ v with fg := i }, [.setFg (palette i)])
  | .background i => ({ v with bg := i }, [.setBg (palette i)])
  | .other => (v, [])

theorem Vt100.applySgr_eq (v : Vt100) (code : Nat) : v.applySgr code = v.applyKind (.ofCode code) := by
  unfold Vt100.applySgr Sgr.ofCode
  repeat rw [apply_ite v.applyKind]
  rfl

/-- Text is shown alike after the same code. -/
theorem Vt100.Alike.applySgr {v w : Vt100} (h : v.Alike w) (code : Nat) :
    (v.applySgr code).1.Alike (w.applySgr code).1 ∧ (v.applySgr code).2 = (w.applySgr code).2 := by
  obtain ⟨hfg, hbg, hbold⟩ := h
  rw [Vt100.applySgr_eq, Vt100.applySgr_eq]
  cases Sgr.ofCode code with
  | clear => exact ⟨⟨rfl, rfl, rfl⟩, rfl⟩
  | bold => exact ⟨⟨hfg, hbg, rfl⟩, by simp only [Vt100.applyKind, hfg]⟩
  | dim => exact ⟨⟨hfg, hbg, rfl⟩, rfl⟩
  | reverse | unreverse => exact ⟨⟨hfg, hbg, hbold⟩, by simp only [Vt100.applyKind, hfg, hbg]⟩
  | foreground i =>
    simp only [Vt100.applyKind, hbold]
    exact ⟨⟨rfl, hbg, rfl⟩, trivial⟩
  | defaultForeground => exact ⟨⟨rfl, hbg, rfl⟩, rfl⟩
  | brightForeground i => exact ⟨⟨rfl, hbg, hbold⟩, rfl⟩
  | background i => exact ⟨⟨hfg, rfl, hbold⟩, rfl⟩
  | other => exact ⟨⟨hfg, hbg, hbold⟩, rfl⟩

theorem Vt100.Alike.applyAll {v w : Vt100} (h : v.Alike w) (codes : List Nat) :
    (v.applyAll codes).1.Alike (w.applyAll codes).1 ∧ (v.applyAll codes).2 = (w.applyAll codes).2 := by
  induction codes generalizing v w with
  | nil => exact ⟨h, rfl⟩
  | cons code codes ih =>
    obtain ⟨hnext, hevents⟩ := h.applySgr code
    obtain ⟨hend, hrest⟩ := ih hnext
    refine ⟨hend, ?_⟩
    simp only [Vt100.applyAll, hevents, hrest]

/-- A parameter that is zero stands for the default. -/
private def orDefault (x default : Nat) : Nat := if x = 0 then default else x

private theorem p_eq {w : Vt100} {f : Nat → Nat} {n : Nat} (hn : w.nparam = n) (hf : ∀ i < 8, w.params.getD i 0 = f i)
    (hzero : ∀ i, n ≤ i → i < 8 → f i = 0) {i : Nat} (hi : i < 8) (default : Nat) :
    w.p i default = orDefault (f i) default := by
  rw [Vt100.p, hf i hi, hn, orDefault]
  by_cases hz : f i = 0
  · rw [if_neg fun h => h.2 hz, if_pos hz]
  · have hlt : i < n := by
      by_contra hle
      exact hz (hzero i (Nat.not_lt.1 hle) hi)
    rw [if_pos ⟨hlt, hz⟩, if_neg hz]

private theorem Holds.p_eq {v w : Vt100} {L : List Digits} (h : Holds v w L) {i : Nat} (hi : i < 8) (default : Nat) :
    w.p i default = orDefault (stored L i) default := by
  refine Gop.p_eq h.nparam h.params (fun j hj hlt => ?_) hi default
  unfold stored
  split
  · rw [List.getD_eq_getElem?_getD, List.getElem?_eq_none (by omega)]
    rfl
  · rw [List.drop_eq_nil_of_le (by omega)]
    rfl

private theorem withParams_p (v : Vt100) (ps : List Nat) {i : Nat} (hi : i < 8) (default : Nat) :
    (v.withParams ps).p i default = orDefault (ps.getD i 0) default := by
  refine Gop.p_eq (n := min ps.length 8) (f := fun i => ps.getD i 0) rfl (fun j hj => ?_) (fun j hj hlt => ?_) hi default
  · simp [Vt100.withParams, Vector.getD, hj]
  · rw [List.getD_eq_getElem?_getD, List.getElem?_eq_none (by omega)]
    rfl

/-! ### Sub-parameters -/

private theorem hasSub_cons (c : Nat) (codes : List Nat) :
    HasSub (c :: codes) ↔ subParams c codes ≠ 0 ∨ HasSub codes := by
  have hhead : subParams c codes ≠ 0 ↔ ∃ m, [c, m] <+: c :: codes ∧ (c = 38 ∨ c = 48) ∧ (m = 5 ∨ m = 2) := by
    unfold subParams
    cases codes with
    | nil => simp
    | cons m codes =>
      simp only [List.head?_cons, Option.some_inj, List.cons_prefix_cons, List.nil_prefix, and_true, true_and]
      split
      · next hc =>
        have hex : (∃ a, a = m ∧ (c = 38 ∨ c = 48) ∧ (a = 5 ∨ a = 2)) ↔ m = 5 ∨ m = 2 := by simp [hc]
        rw [hex]
        split
        · next h5 => simp [h5]
        · next h5 => simp [h5]
      · next hc => simp [hc]
  constructor
  · rintro ⟨a, m, hin, ha, hm⟩
    rcases List.infix_cons_iff.1 hin with hpre | hin
    · obtain ⟨rfl, -⟩ := List.cons_prefix_cons.1 hpre
      exact .inl (hhead.2 ⟨m, hpre, ha, hm⟩)
    · exact .inr ⟨a, m, hin, ha, hm⟩
  · rintro (hsub | ⟨a, m, hin, ha, hm⟩)
    · obtain ⟨m, hpre, hc, hm⟩ := hhead.1 hsub
      exact ⟨c, m, hpre.isInfix, hc, hm⟩
    · exact ⟨a, m, hin.trans (List.suffix_cons c codes).isInfix, ha, hm⟩

private theorem not_hasSub_nil : ¬ HasSub [] := by
  rintro ⟨c, m, hin, -⟩
  exact absurd (List.infix_nil.1 hin) (List.cons_ne_nil _ _)

private theorem length_ownCodes (k : Nat) (codes : List Nat) :
    (ownCodes k codes).length ≤ codes.length ∧
      ((ownCodes k codes).length = codes.length ↔ (k = 0 ∨ codes = []) ∧ ¬ HasSub codes) := by
  induction codes generalizing k with
  | nil =>
    have hnil : ownCodes k [] = [] := by cases k <;> rfl
    rw [hnil]
    exact ⟨le_refl _, iff_of_true rfl ⟨.inr rfl, not_hasSub_nil⟩⟩
  | cons c codes ih =>
    cases k with
    | zero =>
      obtain ⟨hle, hiff⟩ := ih (subParams c codes)
      have hnone : subParams c codes = 0 ∨ codes = [] ↔ subParams c codes = 0 := by
        refine or_iff_left_of_imp ?_
        rintro rfl
        unfold subParams
        split <;> rfl
      rw [ownCodes, List.length_cons, List.length_cons, Nat.add_right_cancel_iff, hiff, hnone, hasSub_cons, not_or, not_not]
      exact ⟨by omega, by simp⟩
    | succ k =>
      obtain ⟨hle, -⟩ := ih k
      rw [ownCodes, List.length_cons]
      exact ⟨by omega, iff_of_false (by omega) fun h => absurd h.1 (by simp)⟩

private theorem ownCodes_of_not_hasSub {codes : List Nat} (h : ¬ HasSub codes) : ownCodes 0 codes = codes := by
  induction codes with
  | nil => rfl
  | cons c codes ih =>
    rw [hasSub_cons, not_or, not_not] at h
    rw [ownCodes, h.1, ih h.2]

/-- No list is what its own codes are with a zero in front. -/
private theorem ne_zero_cons_ownCodes (codes : List Nat) : codes ≠ 0 :: ownCodes 0 codes := by
  induction codes with
  | nil => exact (List.cons_ne_nil _ _).symm
  | cons c codes ih =>
    intro heq
    obtain ⟨rfl, htail⟩ := List.cons.inj heq
    exact ih htail

/-- The applied codes are those that stand for themselves exactly if there are none with sub-parameters and they are the
ones that are written, provided that they are as many. -/
private theorem eq_ownCodes_iff {applied codes : List Nat} (hlen : applied.length = codes.length) :
    applied = ownCodes 0 codes ↔ ¬ HasSub codes ∧ applied = codes := by
  constructor
  · intro heq
    have hsub := (length_ownCodes 0 codes).2.1 (by rw [← heq, hlen])
    exact ⟨hsub.2, heq.trans (ownCodes_of_not_hasSub hsub.2)⟩
  · rintro ⟨hsub, rfl⟩
    exact (ownCodes_of_not_hasSub hsub).symm

/-! ### Graphic renditions -/

private theorem Holds.sgrCodes {v w : Vt100} {L : List Digits} (h : Holds v w L) :
    w.sgrCodes = (List.range (max 1 (min L.length 8))).map (stored L) := by
  have hcount : (if w.nparam = 0 then 1 else w.nparam) = max 1 (min L.length 8) := by
    rw [h.nparam]
    split <;> omega
  rw [Vt100.sgrCodes, hcount]
  refine List.ext_getElem? fun i => ?_
  by_cases hi : i < max 1 (min L.length 8)
  · have hlt : i < 8 := by omega
    have hget : w.params.toList[i]? = some (w.params.getD i 0) := by simp [Vector.getD, hlt]
    rw [List.getElem?_take_of_lt hi, hget, h.params i hlt, List.getElem?_map, List.getElem?_range hi, Option.map_some]
  · rw [List.getElem?_eq_none (by simp; omega), List.getElem?_eq_none (by simp; omega)]

/-- A graphic rendition with one code. -/
theorem single_sgr_events {v : Vt100} (hv : v.state = .normal) {q : Digits} (hq : q ≠ []) :
    (feedAll Vt100.feed v (sequenceBytes q [] ⟨0x6D, by decide⟩)).2.flatten = (v.applySgr (value q)).2 := by
  obtain ⟨holds, hquiet⟩ := holds_params v hv q []
  have hbytes : sequenceBytes q [] ⟨0x6D, by decide⟩ = (0x1B :: 0x5B :: paramBytes q []) ++ [0x6D] := rfl
  have hcodes := holds.sgrCodes
  rw [counted, if_neg hq] at hcodes
  rw [hbytes, feedAll_append, List.flatten_append, hquiet, feedAll_cons, feedAll_nil, feed_csi holds.state]
  generalize (feedAll Vt100.feed v (0x1B :: 0x5B :: paramBytes q [])).1 = w at holds hcodes
  have hfinal : (w.csiCollect 0x6D).2 = (w.applyAll w.sgrCodes).2 := rfl
  have hone : w.sgrCodes = [value q] := hcodes
  simp only [hfinal, hone, Vt100.applyAll, List.flatten_cons, List.flatten_nil, List.append_nil, List.nil_append]
  exact (holds.alike.applySgr (value q)).2.symm

private theorem written_getD (q : Digits) (qs : List Digits) {i : Nat} (hi : i < 8) :
    (written q qs).getD i 0 = value ((q :: qs).getD i []) := by
  rw [written, List.getD_eq_getElem?_getD, List.getElem?_take_of_lt hi, List.getElem?_map, List.getD_eq_getElem?_getD]
  cases (q :: qs)[i]? <;> rfl

private theorem length_written (q : Digits) (qs : List Digits) : (written q qs).length = min (qs.length + 1) 8 := by
  rw [written, List.length_take, List.length_map, List.length_cons, Nat.min_comm]

/-- A list of as many elements is the written one if its elements are. -/
private theorem map_eq_written_iff {q : Digits} {qs : List Digits} {f : Nat → Nat} {n : Nat}
    (hn : n = min (qs.length + 1) 8) :
    (List.range n).map f = written q qs ↔ ∀ i < n, f i = value ((q :: qs).getD i []) := by
  have hfs : ∀ i < n, ((List.range n).map f)[i]? = some (f i) := by
    intro i hi
    rw [List.getElem?_map, List.getElem?_range hi, Option.map_some]
  have hws : ∀ i < n, (written q qs)[i]? = some (value ((q :: qs).getD i [])) := by
    intro i hi
    have hin : i < (written q qs).length := by rw [length_written]; omega
    rw [← written_getD q qs (by omega), List.getD_eq_getElem?_getD, List.getElem?_eq_getElem hin, Option.getD_some]
  constructor
  · intro heq i hi
    have hat := hfs i hi
    rw [heq, hws i hi] at hat
    exact (Option.some.inj hat).symm
  · intro h
    refine List.ext_getElem? fun i => ?_
    by_cases hi : i < n
    · rw [hfs i hi, hws i hi, h i hi]
    · rw [List.getElem?_eq_none (by simpa using hi), List.getElem?_eq_none (by rw [length_written]; omega)]

/-- Which codes are applied when the first parameter is not empty. -/
private theorem codes_iff_of_first {q : Digits} {qs : List Digits} {v w : Vt100} (hq : q ≠ [])
    (h : Holds v w (counted q qs)) : w.sgrCodes = ownCodes 0 (written q qs) ↔
      ¬ HasSub (written q qs) ∧ value (qs.drop 6).flatten = value (qs.getD 6 []) := by
  rw [counted, if_neg hq] at h
  have hcount : max 1 (min (q :: qs).length 8) = min (qs.length + 1) 8 := by rw [List.length_cons]; omega
  have hcodes : w.sgrCodes = (List.range (min (qs.length + 1) 8)).map (stored (q :: qs)) := by
    rw [← hcount]
    exact h.sgrCodes
  rw [hcodes, eq_ownCodes_iff (by rw [List.length_map, List.length_range, length_written]), map_eq_written_iff rfl]
  refine and_congr_right fun _ => ?_
  have hseven : stored (q :: qs) 7 = value (qs.drop 6).flatten := rfl
  constructor
  · intro hall
    by_cases hlen : 7 ≤ qs.length
    · rw [← hseven]
      exact hall 7 (by omega)
    · rw [List.drop_eq_nil_of_le (by omega), List.getD_eq_getElem?_getD, List.getElem?_eq_none (by omega)]
      rfl
  · intro hlast i hi
    by_cases hlow : i < 7
    · rw [stored, if_pos hlow]
    · obtain rfl : i = 7 := by omega
      rw [hseven, hlast]
      rfl

/-- Which codes are applied when it is. -/
private theorem codes_iff_of_empty {qs : List Digits} {v w : Vt100} (h : Holds v w (counted [] qs)) :
    w.sgrCodes = ownCodes 0 (written [] qs) ↔
      ¬ HasSub (written [] qs) ∧ (qs = [] ∨ (8 ≤ qs.length ∧ ∀ p ∈ qs, value p = 0)) := by
  have hcodes : w.sgrCodes = (List.range (max 1 (min qs.length 8))).map (stored qs) := h.sgrCodes
  rw [hcodes]
  -- the empty parameter is not stored, so each of the others stands one place too far left
  by_cases hnil : qs = []
  · subst hnil
    have hsub : ¬ HasSub (written [] []) := by
      rw [show written [] [] = [0] from rfl, hasSub_cons, not_or]
      exact ⟨by decide, not_hasSub_nil⟩
    exact iff_of_true rfl ⟨hsub, .inl rfl⟩
  have hpos : 0 < qs.length := List.length_pos_iff.2 hnil
  by_cases hlen : 8 ≤ qs.length
  · have hcount : max 1 (min qs.length 8) = min (qs.length + 1) 8 := by omega
    rw [hcount, eq_ownCodes_iff (by rw [List.length_map, List.length_range, length_written]), map_eq_written_iff rfl]
    refine and_congr_right fun _ => ?_
    rw [or_iff_right hnil, and_iff_right hlen, Nat.min_eq_right (by omega)]
    constructor
    · intro hall
      -- every value is that of the parameter before it, and the first one is zero
      have hstep : ∀ i < 7, value (qs.getD i []) = 0 := by
        intro i hi
        induction i with
        | zero => exact hall 0 (by decide)
        | succ i ih =>
          have hprev := hall (i + 1) (by omega)
          rw [stored, if_pos hi, List.getD_cons_succ, ih (by omega)] at hprev
          exact hprev
      have hrest : value (qs.drop 7).flatten = 0 := by
        have hlast := hall 7 (by decide)
        rw [List.getD_cons_succ, hstep 6 (by decide)] at hlast
        exact hlast
      intro p hp
      obtain ⟨i, hi, rfl⟩ := List.getElem_of_mem hp
      by_cases hlow : i < 7
      · have hget := hstep i hlow
        rwa [List.getD_eq_getElem?_getD, List.getElem?_eq_getElem hi, Option.getD_some] at hget
      · refine value_flatten_eq_zero_iff.1 hrest _ (List.mem_drop_iff_getElem.2 ⟨i - 7, by omega, ?_⟩)
        congr 1
        omega
    · intro hzero i hi
      have hget : ∀ j, value (qs.getD j []) = 0 := by
        intro j
        rw [List.getD_eq_getElem?_getD]
        rcases hj : qs[j]? with _ | p
        · rfl
        · exact hzero p (List.mem_of_getElem? hj)
      have hwritten : value (([] :: qs).getD i []) = 0 := by
        cases i with
        | zero => rfl
        | succ i => exact hget i
      rw [hwritten, stored]
      split
      · exact hget i
      · exact value_flatten_eq_zero_iff.2 fun p hp => hzero p (List.mem_of_mem_drop hp)
  · refine iff_of_false (fun heq => ?_) (fun hcond => ?_)
    · have hsmall : (List.range (max 1 (min qs.length 8))).map (stored qs) = qs.map value := by
        rw [show max 1 (min qs.length 8) = qs.length by omega]
        refine List.ext_getElem? fun i => ?_
        by_cases hi : i < qs.length
        · rw [List.getElem?_map, List.getElem?_range hi, Option.map_some, List.getElem?_map, List.getElem?_eq_getElem hi,
            Option.map_some, stored, if_pos (by omega), List.getD_eq_getElem?_getD, List.getElem?_eq_getElem hi,
            Option.getD_some]
        · rw [List.getElem?_eq_none (by simpa using hi), List.getElem?_eq_none (by simpa using hi)]
      have hwritten : written [] qs = 0 :: qs.map value := by
        rw [written, List.map_cons, value_nil, List.take_of_length_le (by simp; omega)]
      rw [hsmall, hwritten] at heq
      exact ne_zero_cons_ownCodes _ heq
    · rcases hcond.2 with hnil' | hlong
      · exact hnil hnil'
      · exact hlen hlong.1

/-! ### Other final bytes -/

/-- Where no codes are applied, only the first two parameters count. -/
private theorem dispatch_congr {w w' : Vt100} {f : Byte} (hf : f ≠ 0x6D) (h0 : ∀ d, w.p 0 d = w'.p 0 d)
    (h1 : ∀ d, w.p 1 d = w'.p 1 d) : (w.dispatch f).2 = (w'.dispatch f).2 := by
  unfold Vt100.dispatch
  simp only [h0, h1]
  split
  case h_17 heq => exact absurd (BitVec.eq_of_toNat_eq heq) hf
  all_goals rfl

/-- An empty first parameter that has been left out is missed unless the others do not matter. -/
private theorem dispatch_shifted {w w' : Vt100} {f : Byte} (hf : f ≠ 0x6D) {qs : List Digits}
    (h0 : ∀ d, w.p 0 d = orDefault (value (qs.getD 0 [])) d) (h1 : ∀ d, w.p 1 d = orDefault (value (qs.getD 1 [])) d)
    (h0' : ∀ d, w'.p 0 d = d) (h1' : ∀ d, w'.p 1 d = orDefault (value (qs.getD 0 [])) d) :
    (w.dispatch f).2 = (w'.dispatch f).2 ↔ ShiftHarmless f qs := by
  have hone : ∀ x, orDefault x 1 = 1 ↔ x ≤ 1 := by
    intro x
    unfold orDefault
    split <;> omega
  have hzero : ∀ x, orDefault x 0 = 0 ↔ x = 0 := by
    intro x
    unfold orDefault
    split <;> omega
  have hcolumn : ∀ x, orDefault x 1 - 1 = 0 ↔ x ≤ 1 := by
    intro x
    unfold orDefault
    split <;> omega
  have hposition : ∀ x y, orDefault x 1 - 1 = 0 ∧ orDefault y 1 - 1 = orDefault x 1 - 1 ↔ x ≤ 1 ∧ y ≤ 1 := by
    intro x y
    unfold orDefault
    split <;> split <;> omega
  unfold Vt100.dispatch ShiftHarmless
  simp only [h0, h1, h0', h1']
  split
  case h_8 heq | h_9 heq =>
    simp only [heq, List.cons.injEq, Vt100Event.cursorPosition.injEq, and_true]
    exact hposition _ _
  case h_17 heq => exact absurd (BitVec.eq_of_toNat_eq heq) hf
  all_goals simp [*]

/-- The events of any other final byte are the ones meant exactly if the first parameter counts, or does not matter. -/
private theorem dispatch_iff {v w : Vt100} {q : Digits} {qs : List Digits} (h : Holds v w (counted q qs)) {f : Byte}
    (hf : f ≠ 0x6D) : (w.dispatch f).2 = ((v.withParams (written q qs)).dispatch f).2 ↔ q ≠ [] ∨ ShiftHarmless f qs := by
  have hmeant : ∀ i < 8, ∀ d, (v.withParams (written q qs)).p i d = orDefault (value ((q :: qs).getD i [])) d := by
    intro i hi d
    rw [withParams_p v _ hi, written_getD q qs hi]
  have hread : ∀ i < 7, ∀ d, w.p i d = orDefault (value ((counted q qs).getD i [])) d := by
    intro i hi d
    rw [h.p_eq (by omega), stored, if_pos hi]
  by_cases hq : q = []
  · rw [or_iff_right (not_not.2 hq)]
    subst hq
    exact dispatch_shifted hf (hread 0 (by decide)) (hread 1 (by decide)) (hmeant 0 (by decide)) (hmeant 1 (by decide))
  · refine iff_of_true ?_ (.inl hq)
    rw [counted, if_neg hq] at hread
    refine dispatch_congr hf (fun d => ?_) fun d => ?_
    · rw [hread 0 (by decide), hmeant 0 (by decide)]
      rfl
    · rw [hread 1 (by decide), hmeant 1 (by decide)]
      rfl

/-- A sequence causes the events that it stands for and ends, and its codes are applied as such, exactly if it is
straight. -/
theorem sequence_iff (v : Vt100) (q : Digits) (qs : List Digits) (final : FinalByte) :
    Means { v with state := .normal } q qs final ↔ Straight q qs final := by
  generalize hstart : { v with state := State.normal } = u
  obtain ⟨holds, hquiet⟩ := holds_params u (by rw [← hstart]) q qs
  have hbytes : sequenceBytes q qs final = (0x1B :: 0x5B :: paramBytes q qs) ++ [final.val] := rfl
  have hnot : ¬ (0x30 ≤ final.val.toNat ∧ final.val.toNat ≤ 0x39) := fun h => absurd final.property.1 (by omega)
  have hother : ∀ b : Byte, b.toNat < 0x40 → final.val ≠ b := by
    rintro b hb heq
    exact absurd final.property.1 (by rw [heq]; omega)
  have hlast := feed_csi holds.state final.val
  rw [Vt100.csiCollect, if_neg hnot, if_neg (hother _ (by decide)), if_neg (by
    rintro (h | h | h)
    · exact hother _ (by decide) h
    · exact hother _ (by decide) h
    · exact hother _ (by decide) h)] at hlast
  by_cases hfinal : Vt100.isFinal final.val
  · rw [if_pos hfinal] at hlast
    have hevents : (feedAll Vt100.feed u (sequenceBytes q qs final)).2.flatten =
        ((feedAll Vt100.feed u (0x1B :: 0x5B :: paramBytes q qs)).1.dispatch final.val).2 := by
      rw [hbytes, feedAll_append, feedAll_cons, feedAll_nil, hlast, List.flatten_append, hquiet]
      simp
    have hback : (feedAll Vt100.feed u (sequenceBytes q qs final)).1.state = .normal := by
      rw [hbytes, feedAll_append, feedAll_cons, feedAll_nil, hlast]
    rw [Straight, and_iff_right hfinal]
    by_cases hm : final.val = 0x6D
    · have hcodes : (feedAll Vt100.feed u (0x1B :: 0x5B :: paramBytes q qs)).1.sgrCodes = ownCodes 0 (written q qs) ↔
          ¬ HasSub (written q qs) ∧ if q = [] then qs = [] ∨ (8 ≤ qs.length ∧ ∀ p ∈ qs, value p = 0)
            else value (qs.drop 6).flatten = value (qs.getD 6 []) := by
        by_cases hq : q = []
        · subst hq
          rw [if_pos rfl]
          exact codes_iff_of_empty holds
        · rw [if_neg hq]
          exact codes_iff_of_first hq holds
      rw [if_pos hm, ← hcodes]
      refine ⟨fun h => h.codes hm, fun h => ⟨?_, hback, fun _ => h⟩⟩
      rw [hevents, hm, meantEvents, if_pos hm, (holds.alike.applyAll _).2, ← h]
      rfl
    · rw [if_neg hm, ← dispatch_iff holds hm]
      constructor
      · intro h
        rw [← hevents, h.events, meantEvents, if_neg hm]
      · intro h
        refine ⟨?_, hback, fun hm' => absurd hm' hm⟩
        rw [hevents, h, meantEvents, if_neg hm]
  · -- the byte is not taken for a final one, and the sequence goes on
    rw [if_neg hfinal] at hlast
    refine iff_of_false (fun h => ?_) fun h => hfinal h.1
    have hstays := h.back
    rw [hbytes, feedAll_append, feedAll_cons, feedAll_nil, hlast, holds.state] at hstays
    cases hstays

/-- `ESC [ ; 5 H`, `ESC [ 38 ; 5 ; 7 m`, `ESC [ 3 ~`, and nine parameters of which the last is taken into the eighth. -/
theorem sequence_misread :
    (feedAll Vt100.feed .new (sequenceBytes [] [[5]] ⟨0x48, by decide⟩)).2.flatten = [.cursorPosition 4 0] ∧
      meantEvents .new [] [[5]] ⟨0x48, by decide⟩ = [.cursorPosition 0 4] ∧
      (feedAll Vt100.feed .new (sequenceBytes [3, 8] [[5], [7]] ⟨0x6D, by decide⟩)).2.flatten =
        [.setFg (palette 0), .setBg (palette 7)] ∧
      meantEvents .new [3, 8] [[5], [7]] ⟨0x6D, by decide⟩ = [] ∧
      (feedAll Vt100.feed .new (sequenceBytes [3] [] ⟨0x7E, by decide⟩)).1.state = .csi ∧
      (feedAll Vt100.feed .new (sequenceBytes [0] [[], [], [], [], [], [], [3], [1]] ⟨0x6D, by decide⟩)).2.flatten ≠
        meantEvents .new [0] [[], [], [], [], [], [], [3], [1]] ⟨0x6D, by decide⟩ := by
  decide +kernel

end Rost.Gop
