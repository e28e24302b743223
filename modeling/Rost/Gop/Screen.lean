import Rost.Gop.Font
import Rost.Gop.Vt100
import Rost.Lib.Moves

/-!
# The framebuffer terminal

The events of the parser move a cursor over a grid of character cells and write the pixels of a framebuffer.  An addition
or a multiplication that its type has no room for stops the server, and a pixel outside the framebuffer would be somebody
else's memory; both have no result here.  Of all the sums only those with a parameter can be too large.  As long as these are
not, the cursor stays on the screen and the pixels in the framebuffer, whatever the bytes are (`stays_on_screen_iff`).
-/

namespace Rost.Gop

open Lib (set? fill copyDown copyUp)

/-! ### Checked arithmetic -/

/-- `a + b` on `u32` -/
def add? (a b : Nat) : Option Nat := if a + b < 2 ^ 32 then some (a + b) else none

/-- `a * b` on integers of `w` bits -/
def mul? (w a b : Nat) : Option Nat := if a * b < 2 ^ w then some (a * b) else none

/-! ### The framebuffer -/

/-- `FB_VIRT_BASE` -/
def fbVirt : Nat := 0x40000000

def fontW : Nat := 8
def fontH : Nat := 16

/-- A framebuffer whose pixels are mapped from `FB_VIRT` on. -/
structure Framebuffer where
  stride : Nat
  width : Nat
  height : Nat
  format : Nat
  stride_lt : stride < 2 ^ 32
  width_lt : width < 2 ^ 32
  height_lt : height < 2 ^ 32
  mapped : fbVirt + 4 * (stride * height) ≤ 2 ^ 64

/-- The cursor, the saved position, the colours and the words of the framebuffer. -/
structure Screen where
  cursorCol : Nat
  cursorRow : Nat
  savedCol : Nat
  savedRow : Nat
  colorFg : Argb
  colorBg : Argb
  pixels : List Argb
deriving DecidableEq

namespace Framebuffer

variable (fb : Framebuffer)

def cols : Nat := fb.width / fontW
def rows : Nat := fb.height / fontH

/-- The number of pixels, those outside the lines included. -/
def total : Nat := fb.stride * fb.height

def toNative (color : Argb) : Argb :=
  let r := color >>> 16 &&& 0xFF
  let g := color >>> 8 &&& 0xFF
  let b := color &&& 0xFF
  if fb.format = 0 then r <<< 16 ||| g <<< 8 ||| b else b <<< 16 ||| g <<< 8 ||| r

def putPixel (x y : Nat) (color : Argb) (s : Screen) : Option Screen := do
  let pixels ← set? s.pixels (y * fb.stride + x) (fb.toNative color)
  some { s with pixels := pixels }

/-- `for i in 0..n` -/
def forRange (n : Nat) (f : Nat → Screen → Option Screen) (s : Screen) : Option Screen :=
  (List.range n).foldlM (fun s i => f i s) s

/-- `m` rounds of a loop that counts up from `i`. -/
def countUp (f : Nat → Screen → Option Screen) : Nat → Nat → Screen → Option Screen
  | 0, _, s => some s
  | m + 1, i, s => do
    let s ← f i s
    let i ← add? i 1
    countUp f m i s

/-- `while i <= last { f(i); i += 1 }` -/
def upTo (f : Nat → Screen → Option Screen) (i last : Nat) (s : Screen) : Option Screen := countUp f (last + 1 - i) i s

/-- The loops over the pixels of the cell at `(px, py)`. -/
def cellPixels (px py : Nat) (paint : Nat → Nat → Nat → Nat → Screen → Option Screen) (s : Screen) : Option Screen :=
  forRange fontH (fun gy => forRange fontW fun gx s => do
    let x ← add? px gx
    let y ← add? py gy
    paint gx gy x y s) s

def drawChar (col row : Nat) (ch : Byte) (s : Screen) : Option Screen := do
  let px ← mul? 32 col fontW
  let py ← mul? 32 row fontH
  let right ← add? px fontW
  if fb.width < right then some s
  else
    let bottom ← add? py fontH
    if fb.height < bottom then some s
    else
      cellPixels px py (fun gx gy x y s =>
        fb.putPixel x y (if (glyphRow ch gy).getLsbD (7 - gx) then s.colorFg else s.colorBg) s) s

/-- One round of the loop over the columns in `erase_cells`. -/
def eraseCell (native : Argb) (py col : Nat) (s : Screen) : Option Screen := do
  let px ← mul? 32 col fontW
  cellPixels px py (fun _ _ x y s => if x < fb.width ∧ y < fb.height then fb.putPixel x y native s else some s) s

/-- The colour is converted here, and once more when it is put. -/
def eraseCells (colStart rowStart colEnd rowEnd : Nat) (s : Screen) : Option Screen :=
  let nativeBg := fb.toNative s.colorBg
  upTo (fun row s => do
    let cs := if row = rowStart then colStart else 0
    let ce := if row = rowEnd then colEnd else fb.cols - 1
    let py ← mul? 32 row fontH
    upTo (fb.eraseCell nativeBg py) cs ce s) rowStart rowEnd s

def clearScreen (s : Screen) : Option Screen := do
  let pixels ← fill (fb.toNative s.colorBg) 0 fb.total s.pixels
  some { s with pixels := pixels, cursorCol := 0, cursorRow := 0 }

def eraseLine (mode : Nat) (s : Screen) : Option Screen :=
  let lastCol := fb.cols - 1
  match mode with
  | 0 => fb.eraseCells s.cursorCol s.cursorRow lastCol s.cursorRow s
  | 1 => fb.eraseCells 0 s.cursorRow s.cursorCol s.cursorRow s
  | _ => fb.eraseCells 0 s.cursorRow lastCol s.cursorRow s

def eraseDisplay (mode : Nat) (s : Screen) : Option Screen :=
  let c := s.cursorCol
  let r := s.cursorRow
  let lastCol := fb.cols - 1
  let lastRow := fb.rows - 1
  match mode with
  | 0 => do
    let s ← fb.eraseCells c r lastCol r s
    if r < lastRow then
      let below ← add? r 1
      fb.eraseCells 0 below lastCol lastRow s
    else some s
  | 1 => do
    let above := if 0 < r then fb.eraseCells 0 0 lastCol (r - 1) s else some s
    let s ← above
    fb.eraseCells 0 r c r s
  | _ => fb.clearScreen s

/-- The loop of `delete_chars`, which only counts: `m` rounds. -/
def slide : Nat → Nat → Nat → Option Nat
  | 0, dstCol, _ => some dstCol
  | m + 1, dstCol, srcCol => do
    let dstCol ← add? dstCol 1
    let srcCol ← add? srcCol 1
    slide m dstCol srcCol

def deleteChars (n : Nat) (s : Screen) : Option Screen := do
  let lastCol := fb.cols - 1
  let behind ← add? s.cursorCol n
  let stop ← add? lastCol 1
  let src := min behind stop
  let dstCol ← slide (lastCol + 1 - src) s.cursorCol src
  if dstCol ≤ lastCol then fb.eraseCells dstCol s.cursorRow lastCol s.cursorRow s else some s

/-- The bytes are copied in fours here. -/
def scrollUpN (n : Nat) (s : Screen) : Option Screen := do
  let shiftBytes ← mul? 64 (fb.stride * fontH * 4) n
  if fb.total * 4 ≤ shiftBytes then fb.clearScreen s
  else
    let shift := fb.stride * fontH * n
    let pixels ← copyDown 0 shift (fb.total - shift) s.pixels
    let pixels ← fill (fb.toNative s.colorBg) (fb.total - shift) shift pixels
    some { s with pixels := pixels }

def scrollDownN (n : Nat) (s : Screen) : Option Screen := do
  let shiftBytes ← mul? 64 (fb.stride * fontH * 4) n
  if fb.total * 4 ≤ shiftBytes then fb.clearScreen s
  else
    let shift := fb.stride * fontH * n
    let pixels ← copyUp shift shift (fb.total - shift) s.pixels
    let pixels ← fill (fb.toNative s.colorBg) 0 shift pixels
    some { s with pixels := pixels }

/-! ### Events -/

def linefeed (s : Screen) : Option Screen := do
  let next ← add? s.cursorRow 1
  if fb.rows ≤ next then fb.scrollUpN 1 s else some { s with cursorRow := next }

def clampCursor (s : Screen) : Screen :=
  { s with
    cursorCol := if 0 < fb.cols ∧ fb.cols ≤ s.cursorCol then fb.cols - 1 else s.cursorCol
    cursorRow := if 0 < fb.rows ∧ fb.rows ≤ s.cursorRow then fb.rows - 1 else s.cursorRow }

def emitChar (ch : Byte) (s : Screen) : Option Screen :=
  if fb.cols = 0 then some s
  else do
    let s ← fb.drawChar s.cursorCol s.cursorRow ch s
    let next ← add? s.cursorCol 1
    if fb.cols ≤ next then fb.linefeed { s with cursorCol := 0 } else some { s with cursorCol := next }

/-- The cursor a cell back, at the end of the line above if there is none before it in its own. -/
def stepBack (s : Screen) : Screen :=
  if 0 < s.cursorCol then { s with cursorCol := s.cursorCol - 1 }
  else if 0 < s.cursorRow then { s with cursorRow := s.cursorRow - 1, cursorCol := fb.cols - 1 }
  else s

def handleEvent (s : Screen) : Vt100Event → Option Screen
  | .char b => fb.emitChar b s
  | .carriageReturn => some { s with cursorCol := 0 }
  | .lineFeed => fb.linefeed s
  | .tab => forRange (8 - s.cursorCol % 8) (fun _ => fb.emitChar 0x20) s
  | .backspace => fb.drawChar (fb.stepBack s).cursorCol (fb.stepBack s).cursorRow 0x20 (fb.stepBack s)
  | .cursorUp n => some { s with cursorRow := s.cursorRow - n }
  | .cursorDown n => do
    let row ← add? s.cursorRow n
    some { s with cursorRow := min row (fb.rows - 1) }
  | .cursorRight n => do
    let col ← add? s.cursorCol n
    some { s with cursorCol := min col (fb.cols - 1) }
  | .cursorLeft n => some { s with cursorCol := s.cursorCol - n }
  | .cursorNextLine n => do
    let row ← add? s.cursorRow n
    some { s with cursorRow := min row (fb.rows - 1), cursorCol := 0 }
  | .cursorPrevLine n => some { s with cursorRow := s.cursorRow - n, cursorCol := 0 }
  | .cursorColumn col => some { s with cursorCol := min col (fb.cols - 1) }
  | .cursorPosition row col => some { s with cursorRow := min row (fb.rows - 1), cursorCol := min col (fb.cols - 1) }
  | .saveCursor => some { s with savedCol := s.cursorCol, savedRow := s.cursorRow }
  | .restoreCursor => some (fb.clampCursor { s with cursorCol := s.savedCol, cursorRow := s.savedRow })
  | .eraseLine mode => fb.eraseLine mode s
  | .eraseDisplay mode => fb.eraseDisplay mode s
  | .deleteChars n => fb.deleteChars n s
  | .scrollUp n => fb.scrollUpN n s
  | .scrollDown n => fb.scrollDownN n s
  | .setFg argb => some { s with colorFg := argb }
  | .setBg argb => some { s with colorBg := argb }
  | .reset => fb.clearScreen { s with colorFg := palette defaultFg, colorBg := palette defaultBg }

end Framebuffer

/-! ### The terminal -/

structure Terminal where
  vt : Vt100
  screen : Screen

namespace Terminal

variable (fb : Framebuffer)

/-- The terminal when the server has cleared the screen at its start. -/
def fresh : Terminal :=
  ⟨.new, ⟨0, 0, 0, 0, palette defaultFg, palette defaultBg, .replicate fb.total (fb.toNative (palette defaultBg))⟩⟩

def feedByte (t : Terminal) (b : Byte) : Option Terminal := do
  let screen ← (t.vt.feed b).2.foldlM fb.handleEvent t.screen
  some ⟨(t.vt.feed b).1, screen⟩

def run (t : Terminal) (bytes : Bytes) : Option Terminal := bytes.foldlM (feedByte fb) t

end Terminal

/-! ### What drawing leaves alone -/

/-- Only pixels differ. -/
def Repaints (s s' : Screen) : Prop := ∃ pixels, s' = { s with pixels := pixels } ∧ pixels.length = s.pixels.length

namespace Repaints

theorem refl (s : Screen) : Repaints s s := ⟨s.pixels, rfl, rfl⟩

theorem trans {s t u : Screen} (h : Repaints s t) (h' : Repaints t u) : Repaints s u := by
  obtain ⟨ps, rfl, hps⟩ := h
  obtain ⟨qs, rfl, hqs⟩ := h'
  exact ⟨qs, rfl, hqs.trans hps⟩

end Repaints

namespace Framebuffer

variable {fb : Framebuffer} {f : Nat → Screen → Option Screen} {s s' : Screen}

theorem repaints_putPixel {x y : Nat} {color : Argb} (h : fb.putPixel x y color s = some s') : Repaints s s' := by
  obtain ⟨pixels, hset, hs'⟩ := Option.bind_eq_some_iff.1 h
  exact ⟨pixels, (Option.some.inj hs').symm, Lib.length_of_set? hset⟩

/-- What every round of a loop keeps, the loop keeps. -/
theorem forRange_rel {R : Screen → Screen → Prop} (hrefl : ∀ s, R s s) (htrans : ∀ s t u, R s t → R t u → R s u)
    {n : Nat} (hf : ∀ i s s', f i s = some s' → R s s') (h : forRange n f s = some s') : R s s' := by
  unfold forRange at h
  generalize List.range n = is at h
  induction is generalizing s with
  | nil =>
    cases h
    exact hrefl _
  | cons i is ih =>
    rw [List.foldlM_cons] at h
    obtain ⟨t, ht, hrest⟩ := Option.bind_eq_some_iff.1 h
    exact htrans s t s' (hf i s t ht) (ih hrest)

private theorem repaints_forRange {n : Nat} (hf : ∀ i s s', f i s = some s' → Repaints s s')
    (h : forRange n f s = some s') : Repaints s s' :=
  forRange_rel Repaints.refl (fun _ _ _ => Repaints.trans) hf h

private theorem repaints_upTo {i last : Nat} (hf : ∀ i s s', f i s = some s' → Repaints s s')
    (h : upTo f i last s = some s') : Repaints s s' := by
  unfold upTo at h
  generalize last + 1 - i = m at h
  induction m generalizing i s with
  | zero =>
    cases h
    exact Repaints.refl _
  | succ m ih =>
    obtain ⟨t, ht, hrest⟩ := Option.bind_eq_some_iff.1 h
    obtain ⟨j, -, hrest⟩ := Option.bind_eq_some_iff.1 hrest
    exact (hf i s t ht).trans (ih hrest)

private theorem repaints_cellPixels {px py : Nat} {paint : Nat → Nat → Nat → Nat → Screen → Option Screen}
    (hpaint : ∀ gx gy x y s s', paint gx gy x y s = some s' → Repaints s s')
    (h : cellPixels px py paint s = some s') : Repaints s s' := by
  refine repaints_forRange (fun gy s s' h => repaints_forRange (fun gx s s' h => ?_) h) h
  obtain ⟨x, -, h⟩ := Option.bind_eq_some_iff.1 h
  obtain ⟨y, -, h⟩ := Option.bind_eq_some_iff.1 h
  exact hpaint gx gy x y s s' h

theorem repaints_drawChar {col row : Nat} {ch : Byte} (h : fb.drawChar col row ch s = some s') : Repaints s s' := by
  obtain ⟨px, -, h⟩ := Option.bind_eq_some_iff.1 h
  obtain ⟨py, -, h⟩ := Option.bind_eq_some_iff.1 h
  obtain ⟨right, -, h⟩ := Option.bind_eq_some_iff.1 h
  split at h
  · cases h
    exact Repaints.refl _
  · obtain ⟨bottom, -, h⟩ := Option.bind_eq_some_iff.1 h
    split at h
    · cases h
      exact Repaints.refl _
    · exact repaints_cellPixels (fun _ _ _ _ _ _ h => repaints_putPixel h) h

private theorem repaints_eraseCell {native : Argb} {py col : Nat} (h : fb.eraseCell native py col s = some s') :
    Repaints s s' := by
  obtain ⟨px, -, h⟩ := Option.bind_eq_some_iff.1 h
  refine repaints_cellPixels (fun _ _ x y s s' h => ?_) h
  split at h
  · exact repaints_putPixel h
  · cases h
    exact Repaints.refl _

/-- A line of `erase_cells`. -/
private theorem repaints_eraseRow {native : Argb} {row cs ce : Nat}
    (h : (mul? 32 row fontH >>= fun py => upTo (fb.eraseCell native py) cs ce s) = some s') : Repaints s s' := by
  obtain ⟨py, -, h⟩ := Option.bind_eq_some_iff.1 h
  exact repaints_upTo (fun _ _ _ h => repaints_eraseCell h) h

theorem repaints_eraseCells {colStart rowStart colEnd rowEnd : Nat}
    (h : fb.eraseCells colStart rowStart colEnd rowEnd s = some s') : Repaints s s' :=
  repaints_upTo (fun _ _ _ h => repaints_eraseRow h) h

theorem repaints_eraseLine {mode : Nat} (h : fb.eraseLine mode s = some s') : Repaints s s' := by
  unfold eraseLine at h
  split at h
  · exact repaints_eraseCells h
  · exact repaints_eraseCells h
  · exact repaints_eraseCells h

theorem repaints_deleteChars {n : Nat} (h : fb.deleteChars n s = some s') : Repaints s s' := by
  obtain ⟨behind, -, h⟩ := Option.bind_eq_some_iff.1 h
  obtain ⟨stop, -, h⟩ := Option.bind_eq_some_iff.1 h
  obtain ⟨dstCol, -, h⟩ := Option.bind_eq_some_iff.1 h
  split at h
  · exact repaints_eraseCells h
  · cases h
    exact Repaints.refl _

/-- Only pixels differ, or the cursor is in the first place besides. -/
def RepaintsOrHomes (s s' : Screen) : Prop := Repaints s s' ∨ Repaints { s with cursorCol := 0, cursorRow := 0 } s'

theorem homes_clearScreen (h : fb.clearScreen s = some s') : Repaints { s with cursorCol := 0, cursorRow := 0 } s' := by
  obtain ⟨pixels, hfill, hs'⟩ := Option.bind_eq_some_iff.1 h
  exact ⟨pixels, (Option.some.inj hs').symm, Lib.length_of_fill hfill⟩

theorem repaints_eraseDisplay {mode : Nat} (h : fb.eraseDisplay mode s = some s') : RepaintsOrHomes s s' := by
  unfold eraseDisplay at h
  split at h
  · obtain ⟨t, ht, h⟩ := Option.bind_eq_some_iff.1 h
    refine .inl ((repaints_eraseCells ht).trans ?_)
    split at h
    · obtain ⟨below, -, h⟩ := Option.bind_eq_some_iff.1 h
      exact repaints_eraseCells h
    · cases h
      exact Repaints.refl _
  · obtain ⟨t, ht, h⟩ := Option.bind_eq_some_iff.1 h
    refine .inl (Repaints.trans ?_ (repaints_eraseCells h))
    split at ht
    · exact repaints_eraseCells ht
    · cases ht
      exact Repaints.refl _
  · exact .inr (homes_clearScreen h)

theorem repaints_scrollUpN {n : Nat} (h : fb.scrollUpN n s = some s') : RepaintsOrHomes s s' := by
  obtain ⟨shiftBytes, -, h⟩ := Option.bind_eq_some_iff.1 h
  split at h
  · exact .inr (homes_clearScreen h)
  · obtain ⟨copied, hcopy, h⟩ := Option.bind_eq_some_iff.1 h
    obtain ⟨pixels, hfill, hs'⟩ := Option.bind_eq_some_iff.1 h
    exact .inl ⟨pixels, (Option.some.inj hs').symm, (Lib.length_of_fill hfill).trans (Lib.length_of_copyDown hcopy)⟩

theorem repaints_scrollDownN {n : Nat} (h : fb.scrollDownN n s = some s') : RepaintsOrHomes s s' := by
  obtain ⟨shiftBytes, -, h⟩ := Option.bind_eq_some_iff.1 h
  split at h
  · exact .inr (homes_clearScreen h)
  · obtain ⟨copied, hcopy, h⟩ := Option.bind_eq_some_iff.1 h
    obtain ⟨pixels, hfill, hs'⟩ := Option.bind_eq_some_iff.1 h
    exact .inl ⟨pixels, (Option.some.inj hs').symm, (Lib.length_of_fill hfill).trans (Lib.length_of_copyUp hcopy)⟩

/-! ### The cursor -/

/-- The cursor and the saved position are cells of the screen, if there are any, and the framebuffer has its size. -/
structure Inside (fb : Framebuffer) (s : Screen) : Prop where
  col : s.cursorCol ≤ fb.cols - 1
  row : s.cursorRow ≤ fb.rows - 1
  savedCol : s.savedCol ≤ fb.cols - 1
  savedRow : s.savedRow ≤ fb.rows - 1
  pixels : s.pixels.length = fb.total

private theorem Inside.repaint (h : fb.Inside s) (hs : Repaints s s') : fb.Inside s' := by
  obtain ⟨pixels, rfl, hlen⟩ := hs
  exact ⟨h.col, h.row, h.savedCol, h.savedRow, hlen.trans h.pixels⟩

private theorem Inside.move (h : fb.Inside s) {col row : Nat} (hcol : col ≤ fb.cols - 1) (hrow : row ≤ fb.rows - 1) :
    fb.Inside { s with cursorCol := col, cursorRow := row } := ⟨hcol, hrow, h.savedCol, h.savedRow, h.pixels⟩

private theorem Inside.repaintOrHome (h : fb.Inside s) (hs : RepaintsOrHomes s s') : fb.Inside s' := by
  rcases hs with hs | hs
  · exact h.repaint hs
  · exact (h.move (Nat.zero_le _) (Nat.zero_le _)).repaint hs

theorem add?_eq_some {a b c : Nat} (h : add? a b = some c) : c = a + b ∧ a + b < 2 ^ 32 := by
  unfold add? at h
  split at h
  · next hlt => exact ⟨(Option.some.inj h).symm, hlt⟩
  · cases h

private theorem Inside.linefeed (h : fb.Inside s) (hs : fb.linefeed s = some s') : fb.Inside s' := by
  obtain ⟨next, hnext, hs⟩ := Option.bind_eq_some_iff.1 hs
  split at hs
  · exact h.repaintOrHome (repaints_scrollUpN hs)
  · cases hs
    exact h.move h.col (by omega)

private theorem Inside.emitChar (h : fb.Inside s) {ch : Byte} (hs : fb.emitChar ch s = some s') : fb.Inside s' := by
  unfold Framebuffer.emitChar at hs
  split at hs
  · cases hs
    exact h
  · obtain ⟨t, ht, hs⟩ := Option.bind_eq_some_iff.1 hs
    obtain ⟨next, hnext, hs⟩ := Option.bind_eq_some_iff.1 hs
    have hin := h.repaint (repaints_drawChar ht)
    split at hs
    · exact Inside.linefeed (hin.move (Nat.zero_le _) hin.row) hs
    · cases hs
      exact hin.move (by omega) hin.row

theorem Inside.clampCursor (h : fb.Inside s) :
    fb.clampCursor { s with cursorCol := s.savedCol, cursorRow := s.savedRow } =
      { s with cursorCol := s.savedCol, cursorRow := s.savedRow } := by
  have hcol := h.savedCol
  have hrow := h.savedRow
  unfold Framebuffer.clampCursor
  simp only
  rw [if_neg (by omega), if_neg (by omega)]

private theorem Inside.stepBack (h : fb.Inside s) : fb.Inside (fb.stepBack s) := by
  have hcol := h.col
  have hrow := h.row
  unfold Framebuffer.stepBack
  split
  · exact h.move (by omega) hrow
  · split
    · exact h.move (le_refl _) (by omega)
    · exact h

/-- Every event leaves the cursor on the screen. -/
theorem Inside.handleEvent (h : fb.Inside s) {ev : Vt100Event} (hs : fb.handleEvent s ev = some s') : fb.Inside s' := by
  cases ev with
  | char b => exact h.emitChar hs
  | lineFeed => exact h.linefeed hs
  | tab =>
    exact forRange_rel (R := fun s s' => fb.Inside s → fb.Inside s') (fun _ => id) (fun _ _ _ hst htu => htu ∘ hst)
      (fun _ _ _ hstep hin => hin.emitChar hstep) hs h
  | carriageReturn =>
    cases hs
    exact h.move (Nat.zero_le _) h.row
  | backspace => exact h.stepBack.repaint (repaints_drawChar hs)
  | cursorUp n =>
    cases hs
    exact h.move h.col ((Nat.sub_le _ _).trans h.row)
  | cursorLeft n =>
    cases hs
    exact h.move ((Nat.sub_le _ _).trans h.col) h.row
  | cursorPrevLine n =>
    cases hs
    exact h.move (Nat.zero_le _) ((Nat.sub_le _ _).trans h.row)
  | cursorDown n =>
    obtain ⟨row, -, hs⟩ := Option.bind_eq_some_iff.1 hs
    cases hs
    exact h.move h.col (Nat.min_le_right _ _)
  | cursorRight n =>
    obtain ⟨col, -, hs⟩ := Option.bind_eq_some_iff.1 hs
    cases hs
    exact h.move (Nat.min_le_right _ _) h.row
  | cursorNextLine n =>
    obtain ⟨row, -, hs⟩ := Option.bind_eq_some_iff.1 hs
    cases hs
    exact h.move (Nat.zero_le _) (Nat.min_le_right _ _)
  | cursorColumn col =>
    cases hs
    exact h.move (Nat.min_le_right _ _) h.row
  | cursorPosition row col =>
    cases hs
    exact h.move (Nat.min_le_right _ _) (Nat.min_le_right _ _)
  | saveCursor =>
    cases hs
    exact ⟨h.col, h.row, h.col, h.row, h.pixels⟩
  | restoreCursor =>
    have hclamp : some { s with cursorCol := s.savedCol, cursorRow := s.savedRow } = some s' := h.clampCursor ▸ hs
    cases hclamp
    exact h.move h.savedCol h.savedRow
  | eraseLine mode => exact h.repaint (repaints_eraseLine hs)
  | eraseDisplay mode => exact h.repaintOrHome (repaints_eraseDisplay hs)
  | deleteChars n => exact h.repaint (repaints_deleteChars hs)
  | scrollUp n => exact h.repaintOrHome (repaints_scrollUpN hs)
  | scrollDown n => exact h.repaintOrHome (repaints_scrollDownN hs)
  | setFg argb | setBg argb =>
    cases hs
    exact ⟨h.col, h.row, h.savedCol, h.savedRow, h.pixels⟩
  | reset =>
    have hin : fb.Inside { s with colorFg := palette defaultFg, colorBg := palette defaultBg } :=
      ⟨h.col, h.row, h.savedCol, h.savedRow, h.pixels⟩
    exact hin.repaintOrHome (.inr (homes_clearScreen hs))

/-- The event does not move the cursor up or left, if it is one that goes down or right. -/
def GoesOn (s s' : Screen) : Vt100Event → Prop
  | .cursorDown _ | .cursorRight _ => s.cursorRow ≤ s'.cursorRow ∧ s.cursorCol ≤ s'.cursorCol
  | .cursorNextLine _ => s.cursorRow ≤ s'.cursorRow
  | _ => True

theorem Inside.goesOn (h : fb.Inside s) {ev : Vt100Event} (hs : fb.handleEvent s ev = some s') : GoesOn s s' ev := by
  have hcol := h.col
  have hrow := h.row
  cases ev with
  | cursorDown n =>
    obtain ⟨row, hadd, hs⟩ := Option.bind_eq_some_iff.1 hs
    obtain ⟨rfl, -⟩ := add?_eq_some hadd
    cases hs
    exact ⟨le_min (Nat.le_add_right _ _) hrow, le_refl _⟩
  | cursorRight n =>
    obtain ⟨col, hadd, hs⟩ := Option.bind_eq_some_iff.1 hs
    obtain ⟨rfl, -⟩ := add?_eq_some hadd
    cases hs
    exact ⟨le_refl _, le_min (Nat.le_add_right _ _) hcol⟩
  | cursorNextLine n =>
    obtain ⟨row, hadd, hs⟩ := Option.bind_eq_some_iff.1 hs
    obtain ⟨rfl, -⟩ := add?_eq_some hadd
    cases hs
    exact le_min (Nat.le_add_right _ _) hrow
  | _ => exact trivial

/-! ### What never fails -/

/-- A framebuffer with a cell, and with lines that are as long as they are wide. -/
structure Usable (fb : Framebuffer) : Prop where
  cols : 1 ≤ fb.cols
  rows : 1 ≤ fb.rows
  stride : fb.width ≤ fb.stride

private theorem add?_bind {α : Type} {a b : Nat} {g : Nat → Option α} (h : a + b < 2 ^ 32) :
    (add? a b >>= g) = g (a + b) := by
  rw [add?, if_pos h]
  rfl

private theorem mul?_bind {α : Type} {w a b : Nat} {g : Nat → Option α} (h : a * b < 2 ^ w) :
    (mul? w a b >>= g) = g (a * b) := by
  rw [mul?, if_pos h]
  rfl

theorem lt_of_mul?_bind {α : Type} {w a b : Nat} {g : Nat → Option α} {r : α} (h : (mul? w a b >>= g) = some r) :
    a * b < 2 ^ w := by
  obtain ⟨c, hmul, -⟩ := Option.bind_eq_some_iff.1 h
  unfold mul? at hmul
  split at hmul
  · next hlt => exact hlt
  · cases hmul

/-- A cell of the screen covers pixels of the framebuffer. -/
theorem cell_lt {col row : Nat} (hcol : col < fb.cols) (hrow : row < fb.rows) :
    col * fontW + fontW ≤ fb.width ∧ row * fontH + fontH ≤ fb.height := by
  unfold Framebuffer.cols Framebuffer.rows fontW fontH at *
  omega

private theorem putPixel_isSome (hfb : fb.Usable) {x y : Nat} (hx : x < fb.width) (hy : y < fb.height) (color : Argb)
    (hlen : s.pixels.length = fb.total) : ∃ s', fb.putPixel x y color s = some s' := by
  have hlt : y * fb.stride + x < s.pixels.length := by
    have hwidth := hfb.stride
    have hrows : (y + 1) * fb.stride ≤ fb.height * fb.stride := Nat.mul_le_mul_right _ hy
    rw [Nat.add_mul] at hrows
    rw [hlen, total, Nat.mul_comm fb.stride]
    omega
  rw [putPixel, set?, if_pos hlt]
  exact ⟨_, rfl⟩

private theorem forRange_isSome {n m : Nat} (hsome : ∀ i < n, ∀ s : Screen, s.pixels.length = m → ∃ s', f i s = some s')
    (hf : ∀ i s s', f i s = some s' → Repaints s s') (hlen : s.pixels.length = m) : ∃ s', forRange n f s = some s' := by
  unfold forRange
  have hall : ∀ i ∈ List.range n, i < n := fun i hi => List.mem_range.1 hi
  generalize List.range n = is at hall
  induction is generalizing s with
  | nil => exact ⟨s, rfl⟩
  | cons i is ih =>
    obtain ⟨t, ht⟩ := hsome i (hall i (by simp)) s hlen
    obtain ⟨pixels, rfl, hpixels⟩ := hf i s t ht
    rw [List.foldlM_cons, ht]
    exact ih (hpixels.trans hlen) fun j hj => hall j (by simp [hj])

private theorem upTo_isSome {i last m : Nat}
    (hsome : ∀ j, i ≤ j → j ≤ last → ∀ s : Screen, s.pixels.length = m → ∃ s', f j s = some s')
    (hf : ∀ i s s', f i s = some s' → Repaints s s') (hlast : last + 1 < 2 ^ 32) (hlen : s.pixels.length = m) :
    ∃ s', upTo f i last s = some s' := by
  unfold upTo
  generalize hk : last + 1 - i = k
  induction k generalizing i s with
  | zero => exact ⟨s, rfl⟩
  | succ k ih =>
    obtain ⟨t, ht⟩ := hsome i (le_refl i) (by omega) s hlen
    obtain ⟨pixels, rfl, hpixels⟩ := hf i s t ht
    have hnext : countUp f (k + 1) i s = (add? i 1 >>= fun j => countUp f k j { s with pixels := pixels }) := by
      rw [countUp, ht]
      rfl
    rw [hnext, add?_bind (by omega)]
    exact ih (fun j hij hj => hsome j (by omega) hj) (hpixels.trans hlen) (by omega)

private theorem cellPixels_isSome {px py : Nat} (hpx : px + fontW ≤ fb.width) (hpy : py + fontH ≤ fb.height)
    {paint : Nat → Nat → Nat → Nat → Screen → Option Screen}
    (hsome : ∀ gx gy x y s, x < fb.width → y < fb.height → s.pixels.length = fb.total →
      ∃ s', paint gx gy x y s = some s')
    (hpaint : ∀ gx gy x y s s', paint gx gy x y s = some s' → Repaints s s') (hlen : s.pixels.length = fb.total) :
    ∃ s', cellPixels px py paint s = some s' := by
  have hwidth := fb.width_lt
  have hheight := fb.height_lt
  have hpixel : ∀ gy gx s s', (add? px gx >>= fun x => add? py gy >>= fun y => paint gx gy x y s) = some s' →
      Repaints s s' := by
    intro gy gx s s' h
    obtain ⟨x, -, h⟩ := Option.bind_eq_some_iff.1 h
    obtain ⟨y, -, h⟩ := Option.bind_eq_some_iff.1 h
    exact hpaint gx gy x y s s' h
  refine forRange_isSome (fun gy hgy s hs => forRange_isSome (fun gx hgx s hs => ?_) (hpixel gy) hs)
    (fun gy s s' h => repaints_forRange (hpixel gy) h) hlen
  rw [add?_bind (by omega), add?_bind (by omega)]
  exact hsome gx gy _ _ s (by omega) (by omega) hs

theorem drawChar_isSome (hfb : fb.Usable) {col row : Nat} (hcol : col < fb.cols) (hrow : row < fb.rows) (ch : Byte)
    (hlen : s.pixels.length = fb.total) : ∃ s', fb.drawChar col row ch s = some s' := by
  obtain ⟨hx, hy⟩ := cell_lt hcol hrow
  have hwidth := fb.width_lt
  have hheight := fb.height_lt
  rw [drawChar, mul?_bind (by omega), mul?_bind (by omega), add?_bind (by omega), if_neg (by omega), add?_bind (by omega),
    if_neg (by omega)]
  exact cellPixels_isSome hx hy (fun _ _ _ _ _ hlx hly hs => putPixel_isSome hfb hlx hly _ hs)
    (fun _ _ _ _ _ _ h => repaints_putPixel h) hlen

private theorem eraseCell_isSome (hfb : fb.Usable) {col row : Nat} (hcol : col < fb.cols) (hrow : row < fb.rows)
    (native : Argb) (hlen : s.pixels.length = fb.total) : ∃ s', fb.eraseCell native (row * fontH) col s = some s' := by
  obtain ⟨hx, hy⟩ := cell_lt hcol hrow
  have hwidth := fb.width_lt
  rw [eraseCell, mul?_bind (by omega)]
  refine cellPixels_isSome hx hy (fun _ _ x y s hlx hly hs => ?_) (fun _ _ x y s s' h => ?_) hlen
  · rw [if_pos ⟨hlx, hly⟩]
    exact putPixel_isSome hfb hlx hly _ hs
  · split at h
    · exact repaints_putPixel h
    · cases h
      exact Repaints.refl _

private theorem eraseCells_isSome (hfb : fb.Usable) (colStart rowStart : Nat) {colEnd rowEnd : Nat} (hcol : colEnd < fb.cols)
    (hrow : rowEnd < fb.rows) (hlen : s.pixels.length = fb.total) :
    ∃ s', fb.eraseCells colStart rowStart colEnd rowEnd s = some s' := by
  have hpos := hfb.cols
  have hwidth := fb.width_lt
  have hheight := fb.height_lt
  have hcols : fb.cols ≤ fb.width := Nat.div_le_self _ _
  have hrows : fb.rows ≤ fb.height := Nat.div_le_self _ _
  refine upTo_isSome (fun row _ hle s hs => ?_) (fun _ _ _ h => repaints_eraseRow h) (by omega) hlen
  have hy := (cell_lt hpos (show row < fb.rows by omega)).2
  simp only
  rw [mul?_bind (by omega)]
  have hce : (if row = rowEnd then colEnd else fb.cols - 1) < fb.cols := by split <;> omega
  exact upTo_isSome (fun col _ hlast s hs => eraseCell_isSome hfb (by omega) (by omega) _ hs)
    (fun _ _ _ h => repaints_eraseCell h) (by omega) hs

theorem clearScreen_eq (hlen : s.pixels.length = fb.total) : fb.clearScreen s =
    some { s with pixels := .replicate fb.total (fb.toNative s.colorBg), cursorCol := 0, cursorRow := 0 } := by
  have hfill := Lib.fill_append (fb.toNative s.colorBg) [] s.pixels []
  simp only [List.length_nil, List.nil_append, List.append_nil, hlen] at hfill
  rw [clearScreen, hfill]
  rfl

theorem eraseLine_isSome (hfb : fb.Usable) (h : fb.Inside s) (mode : Nat) : ∃ s', fb.eraseLine mode s = some s' := by
  have hcols := hfb.cols
  have hrows := hfb.rows
  have hcol := h.col
  have hrow := h.row
  unfold eraseLine
  split
  · exact eraseCells_isSome hfb _ _ (by omega) (by omega) h.pixels
  · exact eraseCells_isSome hfb _ _ (by omega) (by omega) h.pixels
  · exact eraseCells_isSome hfb _ _ (by omega) (by omega) h.pixels

private theorem eraseDisplay_isSome (hfb : fb.Usable) (h : fb.Inside s) (mode : Nat) :
    ∃ s', fb.eraseDisplay mode s = some s' := by
  have hcols := hfb.cols
  have hrows := hfb.rows
  have hcol := h.col
  have hrow := h.row
  have hheight := fb.height_lt
  have hle : fb.rows ≤ fb.height := Nat.div_le_self _ _
  unfold eraseDisplay
  split
  · obtain ⟨t, ht⟩ := eraseCells_isSome hfb s.cursorCol s.cursorRow (show fb.cols - 1 < fb.cols by omega)
      (show s.cursorRow < fb.rows by omega) h.pixels
    simp only [ht, Option.bind_eq_bind, Option.bind_some]
    split
    · rw [← Option.bind_eq_bind, add?_bind (by omega)]
      exact eraseCells_isSome hfb _ _ (by omega) (by omega) (h.repaint (repaints_eraseCells ht)).pixels
    · exact ⟨t, rfl⟩
  · have habove : ∃ t, (if 0 < s.cursorRow then fb.eraseCells 0 0 (fb.cols - 1) (s.cursorRow - 1) s else some s) = some t ∧
        Repaints s t := by
      split
      · obtain ⟨t, ht⟩ := eraseCells_isSome hfb 0 0 (show fb.cols - 1 < fb.cols by omega)
          (show s.cursorRow - 1 < fb.rows by omega) h.pixels
        exact ⟨t, ht, repaints_eraseCells ht⟩
      · exact ⟨s, rfl, Repaints.refl s⟩
    obtain ⟨t, ht, hrepaints⟩ := habove
    simp only [ht, Option.bind_eq_bind, Option.bind_some]
    exact eraseCells_isSome hfb _ _ (by omega) (by omega) (h.repaint hrepaints).pixels
  · exact ⟨_, clearScreen_eq h.pixels⟩

private theorem slide_eq {m dstCol srcCol : Nat} (hdst : dstCol + m < 2 ^ 32) (hsrc : srcCol + m < 2 ^ 32) :
    slide m dstCol srcCol = some (dstCol + m) := by
  induction m generalizing dstCol srcCol with
  | zero => rfl
  | succ m ih =>
    rw [slide, add?_bind (by omega), add?_bind (by omega), ih (by omega) (by omega), Nat.add_assoc, Nat.add_comm 1 m]

/-- Characters are deleted exactly if the sum of the column and their number is a `u32`. -/
private theorem deleteChars_isSome_iff (hfb : fb.Usable) (h : fb.Inside s) (n : Nat) :
    (∃ s', fb.deleteChars n s = some s') ↔ s.cursorCol + n < 2 ^ 32 := by
  have hcols := hfb.cols
  have hrows := hfb.rows
  have hcol := h.col
  have hrow := h.row
  have hwidth := fb.width_lt
  have hle : fb.cols ≤ fb.width := Nat.div_le_self _ _
  constructor
  · rintro ⟨s', hs⟩
    obtain ⟨behind, hadd, -⟩ := Option.bind_eq_some_iff.1 hs
    exact (add?_eq_some hadd).2
  · intro hlt
    rw [deleteChars]
    simp only
    rw [add?_bind hlt, add?_bind (by omega), slide_eq (by omega) (by omega), Option.bind_eq_bind, Option.bind_some]
    split
    · exact eraseCells_isSome hfb _ _ (by omega) (by omega) h.pixels
    · exact ⟨s, rfl⟩

/-- The lines that stay move up, and the background comes in behind them. -/
theorem scrollUpN_eq (h : s.pixels.length = fb.total) {n : Nat} (hmul : fb.stride * fontH * 4 * n < 2 ^ 64)
    (hless : fb.stride * fontH * n < fb.total) : fb.scrollUpN n s = some { s with
      pixels := s.pixels.drop (fb.stride * fontH * n) ++
        List.replicate (fb.stride * fontH * n) (fb.toNative s.colorBg) } := by
  rw [scrollUpN, mul?_bind hmul, Nat.mul_right_comm, if_neg (by omega)]
  simp only
  generalize fb.stride * fontH * n = shift at hless
  obtain ⟨gap, hgap, hcopy⟩ := Lib.copyDown_append [] (s.pixels.take shift) (s.pixels.drop shift) []
  have htake : (s.pixels.take shift).length = shift := by rw [List.length_take]; omega
  have hdrop : (s.pixels.drop shift).length = fb.total - shift := by rw [List.length_drop, h]
  simp only [List.nil_append, List.append_nil, List.take_append_drop, List.length_nil, htake, hdrop] at hcopy hgap
  have hfill := Lib.fill_append (fb.toNative s.colorBg) (s.pixels.drop shift) gap []
  rw [hdrop, hgap, List.append_nil, List.append_nil] at hfill
  rw [hcopy, Option.bind_eq_bind, Option.bind_some, hfill]
  rfl

/-- The lines that stay move down, and the background comes in before them. -/
theorem scrollDownN_eq (h : s.pixels.length = fb.total) {n : Nat} (hmul : fb.stride * fontH * 4 * n < 2 ^ 64)
    (hless : fb.stride * fontH * n < fb.total) : fb.scrollDownN n s = some { s with
      pixels := List.replicate (fb.stride * fontH * n) (fb.toNative s.colorBg) ++
        s.pixels.take (fb.total - fb.stride * fontH * n) } := by
  rw [scrollDownN, mul?_bind hmul, Nat.mul_right_comm, if_neg (by omega)]
  simp only
  generalize fb.stride * fontH * n = shift at hless
  have hkeep : (s.pixels.take (fb.total - shift)).length = fb.total - shift := by rw [List.length_take]; omega
  have hrest : (s.pixels.drop (fb.total - shift)).length = shift := by rw [List.length_drop]; omega
  obtain ⟨gap, hgap, hcopy⟩ := Lib.copyUp_append [] (s.pixels.take (fb.total - shift))
    (s.pixels.drop (fb.total - shift)) []
  simp only [List.nil_append, List.append_nil, List.take_append_drop, List.length_nil, Nat.zero_add, hkeep, hrest]
    at hcopy hgap
  have hfill := Lib.fill_append (fb.toNative s.colorBg) [] gap (s.pixels.take (fb.total - shift))
  simp only [hgap, List.length_nil, List.nil_append] at hfill
  rw [hcopy, Option.bind_eq_bind, Option.bind_some, hfill]
  rfl

/-- As many lines as there are, or more, are cleared. -/
theorem scroll_clears {n : Nat} (hmul : fb.stride * fontH * 4 * n < 2 ^ 64) (hle : fb.total ≤ fb.stride * fontH * n) :
    fb.scrollUpN n s = fb.clearScreen s ∧ fb.scrollDownN n s = fb.clearScreen s := by
  have hbytes : fb.total * 4 ≤ fb.stride * fontH * 4 * n := by
    rw [Nat.mul_right_comm]
    exact Nat.mul_le_mul_right 4 hle
  constructor
  · rw [scrollUpN, mul?_bind hmul, if_pos hbytes]
  · rw [scrollDownN, mul?_bind hmul, if_pos hbytes]

/-- The screen is scrolled exactly if the size of the lines that leave it is a `u64`. -/
theorem scrollUpN_isSome_iff (h : s.pixels.length = fb.total) (n : Nat) :
    (∃ s', fb.scrollUpN n s = some s') ↔ fb.stride * fontH * 4 * n < 2 ^ 64 := by
  constructor
  · rintro ⟨s', hs⟩
    exact lt_of_mul?_bind hs
  · intro hlt
    by_cases hless : fb.stride * fontH * n < fb.total
    · exact ⟨_, scrollUpN_eq h hlt hless⟩
    · rw [(scroll_clears hlt (Nat.le_of_not_lt hless)).1]
      exact ⟨_, clearScreen_eq h⟩

private theorem scrollDownN_isSome_iff (h : s.pixels.length = fb.total) (n : Nat) :
    (∃ s', fb.scrollDownN n s = some s') ↔ fb.stride * fontH * 4 * n < 2 ^ 64 := by
  constructor
  · rintro ⟨s', hs⟩
    exact lt_of_mul?_bind hs
  · intro hlt
    by_cases hless : fb.stride * fontH * n < fb.total
    · exact ⟨_, scrollDownN_eq h hlt hless⟩
    · rw [(scroll_clears hlt (Nat.le_of_not_lt hless)).2]
      exact ⟨_, clearScreen_eq h⟩

private theorem linefeed_isSome (hfb : fb.Usable) (h : fb.Inside s) : ∃ s', fb.linefeed s = some s' := by
  have hrows := hfb.rows
  have hrow := h.row
  have hheight := fb.height_lt
  have hstride := fb.stride_lt
  have hle : fb.rows ≤ fb.height := Nat.div_le_self _ _
  rw [linefeed, add?_bind (by omega)]
  split
  · exact (scrollUpN_isSome_iff h.pixels 1).2 (by unfold fontH; omega)
  · exact ⟨_, rfl⟩

private theorem emitChar_isSome (hfb : fb.Usable) (h : fb.Inside s) (ch : Byte) : ∃ s', fb.emitChar ch s = some s' := by
  have hcols := hfb.cols
  have hrows := hfb.rows
  have hcol := h.col
  have hrow := h.row
  have hwidth := fb.width_lt
  have hle : fb.cols ≤ fb.width := Nat.div_le_self _ _
  obtain ⟨t, ht⟩ := drawChar_isSome hfb (show s.cursorCol < fb.cols by omega) (show s.cursorRow < fb.rows by omega) ch
    h.pixels
  have hin := h.repaint (repaints_drawChar ht)
  have hcol' := hin.col
  rw [Framebuffer.emitChar, if_neg (by omega), ht, Option.bind_eq_bind, Option.bind_some, add?_bind (by omega)]
  split
  · exact linefeed_isSome hfb (hin.move (Nat.zero_le _) hin.row)
  · exact ⟨_, rfl⟩

/-- The sums with a parameter that an event comes to are in range. -/
def Fits (fb : Framebuffer) (s : Screen) : Vt100Event → Prop
  | .cursorDown n | .cursorNextLine n => s.cursorRow + n < 2 ^ 32
  | .cursorRight n | .deleteChars n => s.cursorCol + n < 2 ^ 32
  | .scrollUp n | .scrollDown n => fb.stride * fontH * 4 * n < 2 ^ 64
  | _ => True

private theorem add?_map_iff {a b : Nat} {g : Nat → Screen} :
    (∃ s', (add? a b >>= fun c => some (g c)) = some s') ↔ a + b < 2 ^ 32 := by
  constructor
  · rintro ⟨s', hs⟩
    obtain ⟨c, hadd, -⟩ := Option.bind_eq_some_iff.1 hs
    exact (add?_eq_some hadd).2
  · intro hlt
    rw [add?_bind hlt]
    exact ⟨_, rfl⟩

/-- An event is handled exactly if its sums are in range. -/
theorem handleEvent_isSome_iff (hfb : fb.Usable) (h : fb.Inside s) (ev : Vt100Event) :
    (∃ s', fb.handleEvent s ev = some s') ↔ fb.Fits s ev := by
  cases ev with
  | char b => exact iff_of_true (emitChar_isSome hfb h b) trivial
  | lineFeed => exact iff_of_true (linefeed_isSome hfb h) trivial
  | tab =>
    refine iff_of_true ?_ trivial
    rw [handleEvent, forRange]
    generalize List.range (8 - s.cursorCol % 8) = is
    induction is generalizing s with
    | nil => exact ⟨s, rfl⟩
    | cons i is ih =>
      obtain ⟨t, ht⟩ := emitChar_isSome hfb h 0x20
      rw [List.foldlM_cons, ht]
      exact ih (h.emitChar ht)
  | backspace =>
    refine iff_of_true ?_ trivial
    have hcols := hfb.cols
    have hrows := hfb.rows
    have hcol := h.stepBack.col
    have hrow := h.stepBack.row
    exact drawChar_isSome hfb (by omega) (by omega) _ h.stepBack.pixels
  | cursorDown n => exact add?_map_iff
  | cursorRight n => exact add?_map_iff
  | cursorNextLine n => exact add?_map_iff
  | eraseLine mode => exact iff_of_true (eraseLine_isSome hfb h mode) trivial
  | eraseDisplay mode => exact iff_of_true (eraseDisplay_isSome hfb h mode) trivial
  | deleteChars n => exact deleteChars_isSome_iff hfb h n
  | scrollUp n => exact scrollUpN_isSome_iff h.pixels n
  | scrollDown n => exact scrollDownN_isSome_iff h.pixels n
  | reset => exact iff_of_true ⟨_, clearScreen_eq h.pixels⟩ trivial
  | carriageReturn | saveCursor | restoreCursor => exact iff_of_true ⟨_, rfl⟩ trivial
  | cursorUp | cursorLeft | cursorPrevLine | cursorColumn | cursorPosition | setFg | setBg =>
    exact iff_of_true ⟨_, rfl⟩ trivial

/-! ### Streams -/

/-- The events fit, each on the screen that those before it leave. -/
def EventsFit (fb : Framebuffer) : Screen → List Vt100Event → Prop
  | _, [] => True
  | s, ev :: evs => fb.Fits s ev ∧ ∀ s', fb.handleEvent s ev = some s' → fb.EventsFit s' evs

/-- No event moves the cursor up or left that should not. -/
def EventsGoOn (fb : Framebuffer) : Screen → List Vt100Event → Prop
  | _, [] => True
  | s, ev :: evs => ∀ s', fb.handleEvent s ev = some s' → GoesOn s s' ev ∧ fb.EventsGoOn s' evs

theorem Inside.events (h : fb.Inside s) {evs : List Vt100Event} (hs : evs.foldlM fb.handleEvent s = some s') :
    fb.Inside s' := by
  induction evs generalizing s with
  | nil =>
    cases hs
    exact h
  | cons ev evs ih =>
    rw [List.foldlM_cons] at hs
    obtain ⟨t, ht, hrest⟩ := Option.bind_eq_some_iff.1 hs
    exact ih (h.handleEvent ht) hrest

private theorem Inside.eventsGoOn (h : fb.Inside s) (evs : List Vt100Event) : fb.EventsGoOn s evs := by
  induction evs generalizing s with
  | nil => exact trivial
  | cons ev evs ih => exact fun s' hs => ⟨h.goesOn hs, ih (h.handleEvent hs)⟩

private theorem events_isSome_iff (hfb : fb.Usable) (h : fb.Inside s) (evs : List Vt100Event) :
    (∃ s', evs.foldlM fb.handleEvent s = some s') ↔ fb.EventsFit s evs := by
  induction evs generalizing s with
  | nil => exact iff_of_true ⟨s, rfl⟩ trivial
  | cons ev evs ih =>
    rw [List.foldlM_cons]
    constructor
    · rintro ⟨s', hs⟩
      obtain ⟨t, ht, hrest⟩ := Option.bind_eq_some_iff.1 hs
      refine ⟨(handleEvent_isSome_iff hfb h ev).1 ⟨t, ht⟩, fun t' ht' => ?_⟩
      obtain rfl : t = t' := Option.some.inj (ht.symm.trans ht')
      exact (ih (h.handleEvent ht)).1 ⟨s', hrest⟩
    · rintro ⟨hfits, hrest⟩
      obtain ⟨t, ht⟩ := (handleEvent_isSome_iff hfb h ev).2 hfits
      rw [ht]
      exact (ih (h.handleEvent ht)).2 (hrest t ht)

end Framebuffer

namespace Terminal

variable {fb : Framebuffer} {t t' : Terminal}

theorem inside_fresh (fb : Framebuffer) : fb.Inside (fresh fb).screen :=
  ⟨Nat.zero_le _, Nat.zero_le _, Nat.zero_le _, Nat.zero_le _, List.length_replicate⟩

theorem inside_feedByte (h : fb.Inside t.screen) {b : Byte} (ht : feedByte fb t b = some t') : fb.Inside t'.screen := by
  obtain ⟨s, hs, heq⟩ := Option.bind_eq_some_iff.1 ht
  cases heq
  exact h.events hs

theorem run_snoc (pre : Bytes) (b : Byte) : run fb t (pre ++ [b]) = run fb t pre >>= fun u => feedByte fb u b := by
  rw [run, List.foldlM_append]
  congr 1
  funext u
  rw [List.foldlM_cons]
  exact bind_pure _

/-- On every run the cursor stays on the screen. -/
theorem inside_run (h : fb.Inside t.screen) {bytes : Bytes} (ht : run fb t bytes = some t') : fb.Inside t'.screen := by
  induction bytes using List.reverseRecOn generalizing t' with
  | nil =>
    cases ht
    exact h
  | append_singleton pre b ih =>
    rw [run_snoc] at ht
    obtain ⟨u, hu, hfeed⟩ := Option.bind_eq_some_iff.1 ht
    exact inside_feedByte (ih hu) hfeed

/-- After each byte of the stream there is a terminal, its cursor is on the screen, and no event that goes down or right has
moved it up or left. -/
structure StaysOnScreen (fb : Framebuffer) (bytes : Bytes) : Prop where
  cursor : ∀ pre, pre <+: bytes → ∃ t, run fb (fresh fb) pre = some t ∧ t.screen.cursorCol < fb.cols ∧
    t.screen.cursorRow < fb.rows
  goesOn : ∀ pre b, pre ++ [b] <+: bytes → ∀ t, run fb (fresh fb) pre = some t →
    fb.EventsGoOn t.screen (t.vt.feed b).2

/-- The sums of all events are in range. -/
def StreamFits (fb : Framebuffer) (bytes : Bytes) : Prop :=
  ∀ pre b, pre ++ [b] <+: bytes → ∀ t, run fb (fresh fb) pre = some t → fb.EventsFit t.screen (t.vt.feed b).2

/-- A terminal that can be used stays on its screen exactly as long as the sums with a parameter are in range. -/
theorem stays_on_screen_iff (hfb : fb.Usable) (bytes : Bytes) : StaysOnScreen fb bytes ↔ StreamFits fb bytes := by
  have hfeed : ∀ (t : Terminal) b, fb.Inside t.screen →
      ((∃ t', feedByte fb t b = some t') ↔ fb.EventsFit t.screen (t.vt.feed b).2) := by
    intro t b ht
    rw [← Framebuffer.events_isSome_iff hfb ht]
    constructor
    · rintro ⟨t', h⟩
      obtain ⟨s, hs, -⟩ := Option.bind_eq_some_iff.1 h
      exact ⟨s, hs⟩
    · rintro ⟨s, hs⟩
      exact ⟨⟨(t.vt.feed b).1, s⟩, by rw [feedByte, hs]; rfl⟩
  constructor
  · intro h pre b hpre t ht
    obtain ⟨t', ht', -⟩ := h.cursor (pre ++ [b]) hpre
    rw [run_snoc, ht] at ht'
    exact (hfeed t b (inside_run (inside_fresh fb) ht)).1 ⟨t', ht'⟩
  · intro h
    have hrun : ∀ pre, pre <+: bytes → ∃ t, run fb (fresh fb) pre = some t := by
      intro pre
      induction pre using List.reverseRecOn with
      | nil => exact fun _ => ⟨fresh fb, rfl⟩
      | append_singleton pre b ih =>
        intro hpre
        obtain ⟨t, ht⟩ := ih ((List.prefix_append pre [b]).trans hpre)
        obtain ⟨t', ht'⟩ := (hfeed t b (inside_run (inside_fresh fb) ht)).2 (h pre b hpre t ht)
        refine ⟨t', ?_⟩
        rw [run_snoc, ht]
        exact ht'
    refine ⟨fun pre hpre => ?_, fun pre b _ t ht => (inside_run (inside_fresh fb) ht).eventsGoOn _⟩
    obtain ⟨t, ht⟩ := hrun pre hpre
    have hin := inside_run (inside_fresh fb) ht
    have hcol := hin.col
    have hrow := hin.row
    have hcols := hfb.cols
    have hrows := hfb.rows
    exact ⟨t, ht, by omega, by omega⟩

/-- A framebuffer with one column and two rows. -/
def narrow : Framebuffer := ⟨8, 8, 32, 0, by decide, by decide, by decide, by decide⟩

theorem narrow_usable : narrow.Usable := ⟨by decide, by decide, by decide⟩

theorem stays_on_screen_iff_narrow : StaysOnScreen narrow [0x41] ↔ StreamFits narrow [0x41] :=
  stays_on_screen_iff narrow_usable [0x41]

/-- `ESC [ 4294967295 B` in the second row. -/
theorem cursor_down_overflows : narrow.Usable ∧ ¬ StaysOnScreen narrow
    [0x0A, 0x1B, 0x5B, 0x34, 0x32, 0x39, 0x34, 0x39, 0x36, 0x37, 0x32, 0x39, 0x35, 0x42] := by
  have hnone : (run narrow (fresh narrow)
      [0x0A, 0x1B, 0x5B, 0x34, 0x32, 0x39, 0x34, 0x39, 0x36, 0x37, 0x32, 0x39, 0x35, 0x42]).isSome = false := by
    decide +kernel
  refine ⟨narrow_usable, fun h => ?_⟩
  obtain ⟨t, ht, -⟩ := h.cursor _ (List.prefix_refl _)
  rw [ht] at hnone
  cases hnone

end Terminal

end Rost.Gop
