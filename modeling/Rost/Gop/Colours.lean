import Rost.Gop.Screen

/-!
# The colours of the terminal

The parser keeps the attributes of the text, the renderer the two colours it draws with.  What passes between them are
events for one colour or both, and each code sends those that are right if the attributes are the usual ones: reverse video
is forgotten by every code but its own, and boldness by reverse video and by its own end.  A reset sets the colours and the
screen, but neither the attributes nor the saved position (`colours_iff`).
-/

namespace Rost.Gop

open Lib (feedAll feedAll_append feedAll_snoc feedAll_cons feedAll_nil)

/-! ### Attributes and colours -/

/-- A bold foreground among the first eight is shown as one of the others. -/
def bright (fg : Nat) (bold : Bool) : Nat := if bold ∧ fg < 8 then fg + 8 else fg

/-- The foreground and background that the attributes determine. -/
def Vt100.shown (v : Vt100) : Nat × Nat :=
  if v.reverse then (v.bg, bright v.fg v.bold) else (bright v.fg v.bold, v.bg)

def Vt100.colours (v : Vt100) : Argb × Argb := (palette v.shown.1, palette v.shown.2)

def Screen.colours (s : Screen) : Argb × Argb := (s.colorFg, s.colorBg)

/-- The attributes are colours of the palette. -/
structure Vt100.InPalette (v : Vt100) : Prop where
  fg : v.fg ≤ 15
  bg : v.bg ≤ 15

/-- What an event does to the colours. -/
def colourStep (c : Argb × Argb) : Vt100Event → Argb × Argb
  | .setFg argb => (argb, c.2)
  | .setBg argb => (c.1, argb)
  | .reset => (palette defaultFg, palette defaultBg)
  | _ => c

private theorem colourStep_setFg (c : Argb × Argb) (argb : Argb) : colourStep c (.setFg argb) = (argb, c.2) := rfl

private theorem colourStep_setBg (c : Argb × Argb) (argb : Argb) : colourStep c (.setBg argb) = (c.1, argb) := rfl

/-- The foreground or background becomes this colour, and the other one is right. -/
def Vt100.Becomes (v : Vt100) (i : Nat) : Prop := v.reverse = false ∨ (v.bg = i ∧ bright v.fg v.bold = i)

/-- A code of this kind sends the right colours. -/
def Vt100.KindKeeps (v : Vt100) : Sgr → Prop
  | .clear | .other => True
  | .bold => v.Becomes (bright v.fg true)
  | .dim | .reverse | .unreverse => ¬ (v.bold ∧ v.fg < 8)
  | .foreground i => v.Becomes (min (i + if v.bold then 8 else 0) 15)
  | .defaultForeground => v.Becomes defaultFg
  | .brightForeground i | .background i => v.Becomes i

def Vt100.SgrKeeps (v : Vt100) (code : Nat) : Prop := v.KindKeeps (.ofCode code)

/-- All codes do, each with the attributes that those before it leave. -/
def Vt100.CodesKeep (v : Vt100) : List Nat → Prop
  | [] => True
  | code :: codes => v.SgrKeeps code ∧ (v.applySgr code).1.CodesKeep codes

/-- The byte ends no graphic rendition, or one whose codes send the right colours, and it ends no reset, or one at which the
default colours are shown. -/
def Vt100.ByteKeeps (v : Vt100) (b : Byte) : Prop :=
  (v.state = .csi ∧ b = 0x6D → v.CodesKeep v.sgrCodes) ∧
    (v.state = .esc ∧ b = 0x63 → v.shown = (defaultFg, defaultBg))

/-- Every byte of the stream does. -/
def StreamKeeps (bytes : Bytes) : Prop :=
  ∀ pre b, pre ++ [b] <+: bytes → (feedAll Vt100.feed .new pre).1.ByteKeeps b

private theorem palette_inj {i j : Nat} (hi : i ≤ 15) (hj : j ≤ 15) (h : palette i = palette j) : i = j := by
  have hall : ∀ i j : Fin 16, palette i.val = palette j.val → i = j := by decide +kernel
  exact congrArg Fin.val (hall ⟨i, by omega⟩ ⟨j, by omega⟩ h)

private theorem bright_le {fg : Nat} (h : fg ≤ 15) (bold : Bool) : bright fg bold ≤ 15 := by
  unfold bright
  split <;> omega

/-- What a code about one colour does, in both directions of the video. -/
private theorem becomes_iff {v : Vt100} (h : v.InPalette) {i : Nat} (hi : i ≤ 15) :
    ((palette i, v.colours.2) = (if v.reverse then (palette v.bg, palette i) else (palette i, palette v.bg)) ↔
      v.Becomes i) ∧
    ((v.colours.1, palette i) = (if v.reverse then (palette i, palette (bright v.fg v.bold))
      else (palette (bright v.fg v.bold), palette i)) ↔ v.Becomes i) := by
  have hbright := bright_le h.fg v.bold
  unfold Vt100.colours Vt100.shown Vt100.Becomes
  cases v.reverse with
  | false => simp
  | true =>
    simp only [if_true, Prod.mk.injEq, Bool.true_eq_false, false_or]
    constructor
    · constructor
      · rintro ⟨hbg, hfg⟩
        exact ⟨(palette_inj hi h.bg hbg).symm, palette_inj hbright hi hfg⟩
      · rintro ⟨rfl, hfg⟩
        exact ⟨rfl, by rw [hfg]⟩
    · constructor
      · rintro ⟨hbg, hfg⟩
        exact ⟨palette_inj h.bg hi hbg, (palette_inj hi hbright hfg).symm⟩
      · rintro ⟨hbg, hfg⟩
        exact ⟨by rw [hbg], by rw [hfg]⟩

/-- The colours that codes name are those of the palette. -/
private def InRange : Sgr → Prop
  | .background i => i ≤ 15
  | .brightForeground i => 8 ≤ i ∧ i ≤ 15
  | _ => True

private theorem inRange_ofCode (code : Nat) : InRange (Sgr.ofCode code) := by
  unfold Sgr.ofCode
  refine iteInduction (fun _ => trivial) fun _ => iteInduction (fun _ => trivial) fun _ => ?_
  refine iteInduction (fun _ => trivial) fun _ => iteInduction (fun _ => trivial) fun _ => ?_
  refine iteInduction (fun _ => trivial) fun _ => iteInduction (fun _ => trivial) fun _ => ?_
  refine iteInduction (fun _ => trivial) fun _ => iteInduction (fun h => ?_) fun _ => ?_
  · exact (show code - 40 ≤ 15 by omega)
  refine iteInduction (fun _ => ?_) fun _ => iteInduction (fun h => ?_) fun _ => ?_
  · exact (show defaultBg ≤ 15 by decide)
  · exact (show 8 ≤ min (code - 90 + 8) 15 ∧ min (code - 90 + 8) 15 ≤ 15 by omega)
  · exact iteInduction (fun _ => Nat.min_le_right _ _) fun _ => trivial

theorem InPalette.applySgr {v : Vt100} (h : v.InPalette) (code : Nat) : (v.applySgr code).1.InPalette := by
  have hrange := inRange_ofCode code
  rw [Vt100.applySgr_eq]
  cases hkind : Sgr.ofCode code with
  | clear => exact ⟨show defaultFg ≤ 15 by decide, show defaultBg ≤ 15 by decide⟩
  | bold | dim | reverse | unreverse | other => exact ⟨h.fg, h.bg⟩
  | foreground i => exact ⟨Nat.min_le_right _ _, h.bg⟩
  | defaultForeground => exact ⟨show defaultFg ≤ 15 by decide, h.bg⟩
  | brightForeground i =>
    rw [hkind] at hrange
    exact ⟨hrange.2, h.bg⟩
  | background i =>
    rw [hkind] at hrange
    exact ⟨h.fg, hrange⟩

private theorem colours_eq (v : Vt100) : v.colours =
    if v.reverse then (palette v.bg, palette (bright v.fg v.bold)) else (palette (bright v.fg v.bold), palette v.bg) := by
  unfold Vt100.colours Vt100.shown
  split <;> rfl

private theorem bright_eq_self_iff {fg : Nat} {bold : Bool} : bright fg bold = fg ↔ ¬ (bold ∧ fg < 8) := by
  unfold bright
  split
  · next h => exact iff_of_false (by omega) (not_not.2 h)
  · next h => exact iff_of_true rfl h

/-- A code sends the right colours, if those before it are right, exactly under its condition. -/
private theorem kindKeeps_iff {v : Vt100} (h : v.InPalette) {kind : Sgr} (hrange : InRange kind) :
    (v.applyKind kind).2.foldl colourStep v.colours = (v.applyKind kind).1.colours ↔ v.KindKeeps kind := by
  have hsame : palette v.fg = palette (bright v.fg v.bold) ↔ ¬ (v.bold ∧ v.fg < 8) := by
    rw [← bright_eq_self_iff]
    exact ⟨fun heq => (palette_inj h.fg (bright_le h.fg v.bold) heq).symm, fun heq => by rw [heq]⟩
  rw [colours_eq (v.applyKind kind).1]
  cases kind with
  | clear =>
    simp only [Vt100.applyKind, List.foldl_cons, List.foldl_nil, colourStep_setFg, colourStep_setBg, Bool.false_eq_true,
      if_false]
    exact iff_of_true rfl trivial
  | other =>
    simp only [Vt100.applyKind, List.foldl_nil]
    exact iff_of_true (colours_eq v) trivial
  | bold =>
    -- the event brightens the colour, the attribute stays
    have hbright : (if v.fg < 8 then v.fg + 8 else v.fg) = bright v.fg true := by simp [bright]
    simp only [Vt100.applyKind, List.foldl_cons, List.foldl_nil, colourStep_setFg, hbright]
    exact (becomes_iff h (bright_le h.fg true)).1
  | dim =>
    -- no event is sent, so a colour that was bright stays so on the screen
    have hplain : bright v.fg false = v.fg := bright_eq_self_iff.2 fun hb => Bool.false_ne_true hb.1
    simp only [Vt100.applyKind, List.foldl_nil, hplain]
    rw [colours_eq v, Vt100.KindKeeps, ← hsame]
    cases v.reverse with
    | false => simp [eq_comm]
    | true => simp [eq_comm]
  | reverse =>
    simp only [Vt100.applyKind, List.foldl_cons, List.foldl_nil, colourStep_setFg, colourStep_setBg, if_true,
      Prod.mk.injEq, true_and]
    exact hsame
  | unreverse =>
    simp only [Vt100.applyKind, List.foldl_cons, List.foldl_nil, colourStep_setFg, colourStep_setBg, Bool.false_eq_true,
      if_false, Prod.mk.injEq, and_true]
    exact hsame
  | foreground i =>
    have hself : bright (min (i + if v.bold then 8 else 0) 15) v.bold = min (i + if v.bold then 8 else 0) 15 := by
      rw [bright_eq_self_iff]
      rintro ⟨hbold, hlt⟩
      rw [if_pos hbold] at hlt
      omega
    simp only [Vt100.applyKind, List.foldl_cons, List.foldl_nil, colourStep_setFg, hself]
    exact (becomes_iff h (Nat.min_le_right _ _)).1
  | defaultForeground =>
    have hself : bright defaultFg false = defaultFg := rfl
    simp only [Vt100.applyKind, List.foldl_cons, List.foldl_nil, colourStep_setFg, hself]
    exact (becomes_iff h (show defaultFg ≤ 15 by decide)).1
  | brightForeground i =>
    have hself : bright i v.bold = i := bright_eq_self_iff.2 fun hb => absurd hb.2 (Nat.not_lt.2 hrange.1)
    simp only [Vt100.applyKind, List.foldl_cons, List.foldl_nil, colourStep_setFg, hself]
    exact (becomes_iff h hrange.2).1
  | background i =>
    simp only [Vt100.applyKind, List.foldl_cons, List.foldl_nil, colourStep_setBg]
    exact (becomes_iff h hrange).2

theorem sgrKeeps_iff {v : Vt100} (h : v.InPalette) (code : Nat) :
    (v.applySgr code).2.foldl colourStep v.colours = (v.applySgr code).1.colours ↔ v.SgrKeeps code := by
  rw [Vt100.applySgr_eq]
  exact kindKeeps_iff h (inRange_ofCode code)

private theorem codesKeep {v : Vt100} (h : v.InPalette) (codes : List Nat) : (v.applyAll codes).1.InPalette ∧
    (v.CodesKeep codes → (v.applyAll codes).2.foldl colourStep v.colours = (v.applyAll codes).1.colours) := by
  induction codes generalizing v with
  | nil => exact ⟨h, fun _ => rfl⟩
  | cons code codes ih =>
    obtain ⟨hin, hrest⟩ := ih (InPalette.applySgr h code)
    refine ⟨hin, fun hkeep => ?_⟩
    rw [Vt100.applyAll, List.foldl_append, (sgrKeeps_iff h code).2 hkeep.1]
    exact hrest hkeep.2

/-! ### Bytes -/

/-- What a final byte other than `m` does to the attributes and the colours: nothing. -/
private theorem dispatch_plain {v : Vt100} {b : Byte} (hb : b ≠ 0x6D) (c : Argb × Argb) :
    (v.dispatch b).1 = v ∧ (v.dispatch b).2.foldl colourStep c = c := by
  unfold Vt100.dispatch
  split
  case h_17 heq => exact absurd (BitVec.eq_of_toNat_eq heq) hb
  all_goals exact ⟨rfl, rfl⟩

private theorem normal_plain (v : Vt100) (b : Byte) (c : Argb × Argb) :
    ((v.normal b).1 = v ∨ (v.normal b).1 = { v with state := .esc }) ∧ (v.normal b).2.foldl colourStep c = c := by
  unfold Vt100.normal
  split
  · exact ⟨.inr rfl, rfl⟩
  repeat' split
  all_goals exact ⟨.inl rfl, rfl⟩

private theorem csiCollect_cases (v : Vt100) (b : Byte) :
    (v.csiCollect b = ({ (v.dispatch b).1 with state := .normal }, (v.dispatch b).2)) ∨
      ∃ params nparam flag, v.csiCollect b = ({ v with params := params, nparam := nparam, flag := flag }, []) := by
  unfold Vt100.csiCollect
  simp only
  split
  · by_cases hidx : (if v.nparam = 0 then 1 else v.nparam) - 1 < 8
    · rw [if_pos hidx]
      exact .inr ⟨_, _, _, rfl⟩
    · rw [if_neg hidx]
      exact .inr ⟨_, _, _, rfl⟩
  · split
    · exact .inr ⟨_, _, _, rfl⟩
    · split
      · exact .inr ⟨_, _, _, rfl⟩
      · split
        · exact .inl rfl
        · exact .inr ⟨_, _, _, rfl⟩

/-- A byte sends the right colours, if those before it are right, under its condition. -/
private theorem byteKeeps {v : Vt100} (h : v.InPalette) (b : Byte) : (v.feed b).1.InPalette ∧
    (v.ByteKeeps b → (v.feed b).2.foldl colourStep v.colours = (v.feed b).1.colours) := by
  unfold Vt100.feed
  split
  · obtain ⟨hv, hevents⟩ := normal_plain v b v.colours
    rw [hevents]
    rcases hv with hv | hv
    · rw [hv]
      exact ⟨h, fun _ => rfl⟩
    · rw [hv]
      exact ⟨⟨h.fg, h.bg⟩, fun _ => rfl⟩
  · next hstate =>
    unfold Vt100.escape
    by_cases hreset : b = 0x63
    · subst hreset
      refine ⟨⟨h.fg, h.bg⟩, fun hkeep => ?_⟩
      have hshown := hkeep.2 ⟨hstate, rfl⟩
      have hcolours : v.colours = (palette defaultFg, palette defaultBg) := by rw [Vt100.colours, hshown]
      exact hcolours.symm
    · rw [if_neg hreset]
      split_ifs
      all_goals exact ⟨⟨h.fg, h.bg⟩, fun _ => rfl⟩
  · next hstate =>
    rcases csiCollect_cases v b with heq | ⟨params, nparam, flag, heq⟩
    · rw [heq]
      by_cases hm : b = 0x6D
      · subst hm
        obtain ⟨hin, hkeeps⟩ := codesKeep h v.sgrCodes
        exact ⟨⟨hin.fg, hin.bg⟩, fun hkeep => hkeeps (hkeep.1 ⟨hstate, rfl⟩)⟩
      · obtain ⟨hv, hevents⟩ := dispatch_plain hm v.colours
        have hin : Vt100.InPalette { (v.dispatch b).1 with state := .normal } := by
          rw [hv]
          exact ⟨h.fg, h.bg⟩
        have hcolours : Vt100.colours { (v.dispatch b).1 with state := .normal } = v.colours := by
          rw [hv]
          rfl
        exact ⟨hin, fun _ => hevents.trans hcolours.symm⟩
    · rw [heq]
      exact ⟨⟨h.fg, h.bg⟩, fun _ => rfl⟩

/-- After every stream the attributes are colours of the palette, and the colours are right if all bytes keep them so. -/
private theorem stream_colours (bytes : Bytes) : (feedAll Vt100.feed .new bytes).1.InPalette ∧
    (StreamKeeps bytes → (feedAll Vt100.feed .new bytes).2.flatten.foldl colourStep Vt100.new.colours =
      (feedAll Vt100.feed .new bytes).1.colours) := by
  induction bytes using List.reverseRecOn with
  | nil => exact ⟨⟨show defaultFg ≤ 15 by decide, show defaultBg ≤ 15 by decide⟩, fun _ => rfl⟩
  | append_singleton pre b ih =>
    obtain ⟨hin, hcolours⟩ := ih
    obtain ⟨hnext, hkeeps⟩ := byteKeeps hin b
    rw [feedAll_snoc]
    refine ⟨hnext, fun hstream => ?_⟩
    have hpre : StreamKeeps pre := fun pre' b' h => hstream pre' b' (h.trans (List.prefix_append pre [b]))
    rw [List.flatten_append, List.foldl_append, hcolours hpre]
    simp only [List.flatten_cons, List.flatten_nil, List.append_nil]
    exact hkeeps (hstream pre b (List.prefix_refl _))

/-! ### The renderer -/

section
variable {fb : Framebuffer} {s s' : Screen}

private theorem Repaints.colours (h : Repaints s s') : s'.colours = s.colours := by
  obtain ⟨pixels, rfl, -⟩ := h
  rfl

private theorem colours_of_repaintsOrHomes (h : Framebuffer.RepaintsOrHomes s s') : s'.colours = s.colours := by
  rcases h with h | h
  · exact Repaints.colours h
  · have hhome := Repaints.colours h
    exact hhome

private theorem colours_linefeed (h : fb.linefeed s = some s') : s'.colours = s.colours := by
  obtain ⟨next, -, h⟩ := Option.bind_eq_some_iff.1 h
  split at h
  · exact colours_of_repaintsOrHomes (Framebuffer.repaints_scrollUpN h)
  · cases h
    rfl

private theorem colours_emitChar {ch : Byte} (h : fb.emitChar ch s = some s') : s'.colours = s.colours := by
  unfold Framebuffer.emitChar at h
  split at h
  · cases h
    rfl
  · obtain ⟨t, ht, h⟩ := Option.bind_eq_some_iff.1 h
    obtain ⟨next, -, h⟩ := Option.bind_eq_some_iff.1 h
    have hdraw := Repaints.colours (Framebuffer.repaints_drawChar ht)
    split at h
    · exact (colours_linefeed h).trans hdraw
    · cases h
      exact hdraw

/-- An event changes the colours of the renderer as it says. -/
theorem colours_handleEvent {ev : Vt100Event} (h : fb.handleEvent s ev = some s') :
    s'.colours = colourStep s.colours ev := by
  cases ev with
  | char b => exact colours_emitChar h
  | lineFeed => exact colours_linefeed h
  | tab =>
    exact Framebuffer.forRange_rel (R := fun s s' => s'.colours = s.colours) (fun _ => rfl)
      (fun _ _ _ hst htu => htu.trans hst) (fun _ _ _ hstep => colours_emitChar hstep) h
  | backspace =>
    have hback : (fb.stepBack s).colours = s.colours := by
      unfold Framebuffer.stepBack
      split
      · rfl
      · split <;> rfl
    exact (Repaints.colours (Framebuffer.repaints_drawChar h)).trans hback
  | cursorDown n | cursorRight n | cursorNextLine n =>
    obtain ⟨at', -, h⟩ := Option.bind_eq_some_iff.1 h
    cases h
    rfl
  | eraseLine mode => exact Repaints.colours (Framebuffer.repaints_eraseLine h)
  | eraseDisplay mode => exact colours_of_repaintsOrHomes (Framebuffer.repaints_eraseDisplay h)
  | deleteChars n => exact Repaints.colours (Framebuffer.repaints_deleteChars h)
  | scrollUp n => exact colours_of_repaintsOrHomes (Framebuffer.repaints_scrollUpN h)
  | scrollDown n => exact colours_of_repaintsOrHomes (Framebuffer.repaints_scrollDownN h)
  | reset =>
    have hhome := Repaints.colours (Framebuffer.homes_clearScreen h)
    exact hhome
  | carriageReturn | saveCursor | restoreCursor =>
    cases h
    rfl
  | cursorUp | cursorLeft | cursorPrevLine | cursorColumn | cursorPosition | setFg | setBg =>
    cases h
    rfl

private theorem colours_events {evs : List Vt100Event} (h : evs.foldlM fb.handleEvent s = some s') :
    s'.colours = evs.foldl colourStep s.colours := by
  induction evs generalizing s with
  | nil =>
    cases h
    rfl
  | cons ev evs ih =>
    rw [List.foldlM_cons] at h
    obtain ⟨t, ht, hrest⟩ := Option.bind_eq_some_iff.1 h
    rw [ih hrest, colours_handleEvent ht, List.foldl_cons]

end

/-! ### The terminal -/

namespace Terminal

variable {fb : Framebuffer} {t : Terminal}

/-- The bytes are decoded apart from what is drawn, and the events are drawn in their order. -/
theorem run_eq (bytes : Bytes) : run fb t bytes =
    ((feedAll Vt100.feed t.vt bytes).2.flatten.foldlM fb.handleEvent t.screen).map fun s =>
      ⟨(feedAll Vt100.feed t.vt bytes).1, s⟩ := by
  induction bytes generalizing t with
  | nil => rfl
  | cons b bytes ih =>
    rw [run, List.foldlM_cons, feedByte, feedAll_cons, List.flatten_cons, List.foldlM_append]
    rcases hevents : (t.vt.feed b).2.foldlM fb.handleEvent t.screen with _ | s
    · rfl
    · exact ih

/-- What is seen of a terminal: the cursor, the colours and the pixels. -/
def view (t : Terminal) : (Nat × Nat) × (Argb × Argb) × List Argb :=
  ((t.screen.cursorCol, t.screen.cursorRow), t.screen.colours, t.screen.pixels)

/-- The colours are the ones that the attributes determine. -/
def Agrees (t : Terminal) : Prop := t.screen.colours = t.vt.colours

/-- After `ESC c` every stream is seen as on a terminal that has just started. -/
def ResetComplete (fb : Framebuffer) (t : Terminal) : Prop :=
  ∀ t', run fb t [0x1B, 0x63] = some t' → ∀ stream, (run fb t' stream).map view = (run fb (fresh fb) stream).map view

/-- The attributes are the usual ones, video apart, and the saved position is the first cell. -/
structure AsNew (t : Terminal) : Prop where
  fg : t.vt.fg = defaultFg
  bg : t.vt.bg = defaultBg
  bold : t.vt.bold = false
  saved : t.screen.savedCol = 0 ∧ t.screen.savedRow = 0

/-! ### The same events -/

/-- The parsers will go on alike: what they have collected is the same, as far as it will be read. -/
private structure Sim (v w : Vt100) : Prop where
  state : v.state = w.state
  alike : v.Alike w
  params : v.state = .csi → v.params = w.params ∧ v.nparam = w.nparam

private theorem p_congr {v w : Vt100} (hparams : v.params = w.params) (hnparam : v.nparam = w.nparam) (i d : Nat) :
    v.p i d = w.p i d := by
  rw [Vt100.p, Vt100.p, hparams, hnparam]

private theorem dispatch_sim {v w : Vt100} (h : v.Alike w) (hparams : v.params = w.params) (hnparam : v.nparam = w.nparam)
    (b : Byte) : (v.dispatch b).1.Alike (w.dispatch b).1 ∧ (v.dispatch b).2 = (w.dispatch b).2 := by
  by_cases hm : b = 0x6D
  · subst hm
    have hcodes : v.sgrCodes = w.sgrCodes := by rw [Vt100.sgrCodes, Vt100.sgrCodes, hparams, hnparam]
    have happly : (v.applyAll v.sgrCodes).1.Alike (w.applyAll w.sgrCodes).1 ∧
        (v.applyAll v.sgrCodes).2 = (w.applyAll w.sgrCodes).2 := by
      rw [hcodes]
      exact h.applyAll _
    exact happly
  · rw [(dispatch_plain hm v.colours).1, (dispatch_plain hm w.colours).1]
    refine ⟨h, ?_⟩
    unfold Vt100.dispatch
    simp only [p_congr hparams hnparam]
    split
    case h_17 heq => exact absurd (BitVec.eq_of_toNat_eq heq) hm
    all_goals rfl

private theorem sim_feed {v w : Vt100} (h : Sim v w) (b : Byte) :
    Sim (v.feed b).1 (w.feed b).1 ∧ (v.feed b).2 = (w.feed b).2 := by
  obtain ⟨hstate, halike, hparams⟩ := h
  have hnormal : ∀ v w : Vt100, v.Alike w → Sim { v with state := .normal } { w with state := .normal } :=
    fun v w h => ⟨rfl, ⟨h.fg, h.bg, h.bold⟩, fun h => State.noConfusion h⟩
  unfold Vt100.feed
  rw [← hstate]
  rcases hv : v.state with _ | _ | _
  · have hstay : Sim v w := ⟨hstate, halike, hparams⟩
    unfold Vt100.normal
    simp only
    split_ifs
    · exact ⟨⟨rfl, ⟨halike.fg, halike.bg, halike.bold⟩, fun h => State.noConfusion h⟩, rfl⟩
    all_goals exact ⟨hstay, rfl⟩
  · unfold Vt100.escape
    simp only
    split_ifs
    · exact ⟨⟨rfl, ⟨halike.fg, halike.bg, halike.bold⟩, fun _ => ⟨rfl, rfl⟩⟩, rfl⟩
    all_goals exact ⟨hnormal v w halike, rfl⟩
  · -- both have read the same parameters; the flag plays no part in the events
    obtain ⟨hp, hn⟩ := hparams hv
    have hcollect : ∀ (params : Vector Nat 8) (nparam : Nat) (flag flag' : Byte),
        Sim { v with params := params, nparam := nparam, flag := flag }
          { w with params := params, nparam := nparam, flag := flag' } :=
      fun _ _ _ _ => ⟨hstate, ⟨halike.fg, halike.bg, halike.bold⟩, fun _ => ⟨rfl, rfl⟩⟩
    have hstay : Sim v w := ⟨hstate, halike, hparams⟩
    unfold Vt100.csiCollect
    simp only [hp, hn]
    by_cases hdigit : 0x30 ≤ b.toNat ∧ b.toNat ≤ 0x39
    · rw [if_pos hdigit, if_pos hdigit]
      by_cases hidx : (if w.nparam = 0 then 1 else w.nparam) - 1 < 8
      · rw [if_pos hidx, if_pos hidx]
        exact ⟨hcollect _ _ _ _, rfl⟩
      · rw [if_neg hidx, if_neg hidx]
        exact ⟨hcollect _ _ _ _, rfl⟩
    rw [if_neg hdigit, if_neg hdigit]
    by_cases hsep : b = 0x3B
    · rw [if_pos hsep, if_pos hsep]
      exact ⟨hcollect _ _ _ _, rfl⟩
    rw [if_neg hsep, if_neg hsep]
    by_cases hflag : b = 0x3F ∨ b = 0x3E ∨ b = 0x21
    · rw [if_pos hflag, if_pos hflag]
      exact ⟨hcollect _ _ _ _, rfl⟩
    rw [if_neg hflag, if_neg hflag]
    by_cases hfinal : Vt100.isFinal b
    · obtain ⟨hdispatch, hevents⟩ := dispatch_sim halike hp hn b
      rw [if_pos hfinal, if_pos hfinal]
      exact ⟨hnormal _ _ hdispatch, hevents⟩
    · rw [if_neg hfinal, if_neg hfinal]
      exact ⟨hstay, rfl⟩

private theorem sim_events {v w : Vt100} (h : Sim v w) (bytes : Bytes) :
    (feedAll Vt100.feed v bytes).2 = (feedAll Vt100.feed w bytes).2 := by
  induction bytes generalizing v w with
  | nil => rfl
  | cons b bytes ih =>
    obtain ⟨hnext, hevents⟩ := sim_feed h b
    rw [feedAll_cons, feedAll_cons, hevents, ih hnext]

/-! ### Resets -/

/-- What is seen after a reset of a terminal on a screen of its size. -/
private theorem run_reset (hstate : t.vt.state = .normal) (hlen : t.screen.pixels.length = fb.total) :
    run fb t [0x1B, 0x63] = some ⟨{ t.vt with state := .normal }, { (fresh fb).screen with
      savedCol := t.screen.savedCol, savedRow := t.screen.savedRow }⟩ := by
  have hesc : t.vt.feed 0x1B = ({ t.vt with state := .esc }, []) := by
    rw [Vt100.feed, hstate]
    rfl
  have hreset : Vt100.feed { t.vt with state := .esc } 0x63 = ({ t.vt with state := .normal }, [.reset]) := rfl
  have hclear : fb.clearScreen { t.screen with colorFg := palette defaultFg, colorBg := palette defaultBg } = _ :=
    Framebuffer.clearScreen_eq hlen
  rw [run_eq, feedAll_cons, hesc, feedAll_cons, hreset, feedAll_nil]
  simp only [List.flatten_cons, List.flatten_nil, List.nil_append, List.append_nil, List.foldlM_cons, List.foldlM_nil,
    Framebuffer.handleEvent, hclear]
  rfl

/-- `ESC [ 27 m` -/
private def unreverse : Bytes := sequenceBytes [2, 7] [] ⟨0x6D, by decide⟩

/-- `ESC [ 31 m` -/
private def red : Bytes := sequenceBytes [3, 1] [] ⟨0x6D, by decide⟩

private theorem unreverse_events {v : Vt100} (hv : v.state = .normal) :
    (feedAll Vt100.feed v unreverse).2.flatten = [.setFg (palette v.fg), .setBg (palette v.bg)] := by
  have hcode : Sgr.ofCode (value [2, 7]) = .unreverse := by decide
  rw [unreverse, single_sgr_events hv (List.cons_ne_nil _ _), Vt100.applySgr_eq, hcode]
  rfl

private theorem red_events {v : Vt100} (hv : v.state = .normal) :
    (feedAll Vt100.feed v red).2.flatten = [.setFg (palette (min (1 + if v.bold then 8 else 0) 15))] := by
  have hcode : Sgr.ofCode (value [3, 1]) = .foreground 1 := by decide
  rw [red, single_sgr_events hv (List.cons_ne_nil _ _), Vt100.applySgr_eq, hcode]
  rfl

private theorem restore_events {v : Vt100} (hv : v.state = .normal) :
    (feedAll Vt100.feed v [0x1B, 0x38]).2.flatten = [.restoreCursor] := by
  have hesc : v.feed 0x1B = ({ v with state := .esc }, []) := by
    rw [Vt100.feed, hv]
    rfl
  rw [feedAll_cons, hesc]
  rfl

/-- A reset is complete exactly if the attributes are the usual ones and the saved position is the first cell. -/
theorem reset_complete_iff (hstate : t.vt.state = .normal) (hvt : t.vt.InPalette) (hin : fb.Inside t.screen) :
    ResetComplete fb t ↔ AsNew t := by
  have hreset := run_reset hstate hin.pixels
  have hfresh : (fresh fb).vt = .new := rfl
  constructor
  · intro h
    have hseen := fun stream => h _ hreset stream
    -- what is shown after three streams tells the attributes: the pair of colours, bold, and the saved position
    have hcolours := hseen unreverse
    rw [run_eq, run_eq, unreverse_events rfl, unreverse_events rfl] at hcolours
    have hred := hseen red
    rw [run_eq, run_eq, red_events rfl, red_events rfl] at hred
    have hcursor := hseen [0x1B, 0x38]
    rw [run_eq, run_eq, restore_events rfl, restore_events rfl] at hcursor
    have hfgbg : (palette t.vt.fg, palette t.vt.bg) = (palette defaultFg, palette defaultBg) :=
      congrArg (fun o => o.2.1) (Option.some.inj hcolours)
    have hbold : palette (min (1 + if t.vt.bold then 8 else 0) 15) = palette (min (1 + 0) 15) :=
      congrArg (fun o => o.2.1.1) (Option.some.inj hred)
    have hstart : fb.Inside { (fresh fb).screen with
        savedCol := t.screen.savedCol, savedRow := t.screen.savedRow } :=
      ⟨Nat.zero_le _, Nat.zero_le _, hin.savedCol, hin.savedRow, List.length_replicate⟩
    have hat := congrArg (fun o => o.1) (Option.some.inj hcursor)
    have hclamp := hstart.clampCursor
    have hclamp' := (inside_fresh fb).clampCursor
    have hat' : (t.screen.savedCol, t.screen.savedRow) = ((fresh fb).screen.savedCol, (fresh fb).screen.savedRow) := by
      simpa only [view, hclamp, hclamp'] using hat
    refine ⟨palette_inj hvt.fg (by decide) (congrArg Prod.fst hfgbg), palette_inj hvt.bg (by decide)
      (congrArg Prod.snd hfgbg), ?_, congrArg Prod.fst hat', congrArg Prod.snd hat'⟩
    cases hb : t.vt.bold with
    | false => rfl
    | true =>
      rw [hb] at hbold
      exact absurd (palette_inj (by decide) (by decide) hbold) (by decide)
  · rintro ⟨hfg, hbg, hbold, hsavedCol, hsavedRow⟩ t' ht' stream
    obtain rfl := Option.some.inj (hreset.symm.trans ht')
    have hsim : Sim { t.vt with state := .normal } .new := ⟨rfl, ⟨hfg, hbg, hbold⟩, fun h => State.noConfusion h⟩
    have hscreen : { (fresh fb).screen with savedCol := t.screen.savedCol, savedRow := t.screen.savedRow } =
        (fresh fb).screen := by
      rw [hsavedCol, hsavedRow]
      rfl
    rw [run_eq, run_eq, sim_events hsim, hscreen, hfresh, Option.map_map, Option.map_map]
    rfl

/-- The parser of a run reads what it would read by itself. -/
private theorem run_vt {bytes : Bytes} {t' : Terminal} (h : run fb t bytes = some t') :
    t'.vt = (feedAll Vt100.feed t.vt bytes).1 ∧
      t'.screen.colours = (feedAll Vt100.feed t.vt bytes).2.flatten.foldl colourStep t.screen.colours := by
  rw [run_eq] at h
  obtain ⟨s, hs, heq⟩ := Option.map_eq_some_iff.1 h
  cases heq
  exact ⟨rfl, colours_events hs⟩

/-- The attributes are always colours of the palette; the colours are the ones that the attributes determine as long as all
bytes keep them so; and in the normal state a reset is complete exactly if the attributes are the usual ones, video apart,
and the saved position is the first cell. -/
theorem colours_iff (fb : Framebuffer) (bytes : Bytes) :
    (∀ t, run fb (fresh fb) bytes = some t → t.vt.fg ≤ 15 ∧ t.vt.bg ≤ 15) ∧
    (StreamKeeps bytes → ∀ pre, pre <+: bytes → ∀ t, run fb (fresh fb) pre = some t → t.Agrees) ∧
    (∀ t, run fb (fresh fb) bytes = some t → t.vt.state = .normal → (ResetComplete fb t ↔ t.AsNew)) := by
  have hvt : ∀ t, run fb (fresh fb) bytes = some t → t.vt.InPalette := by
    intro t ht
    rw [(run_vt ht).1]
    exact (stream_colours bytes).1
  refine ⟨fun t ht => ⟨(hvt t ht).fg, (hvt t ht).bg⟩, fun hkeep pre hpre t ht => ?_, fun t ht hstate => ?_⟩
  · have hkeep' : StreamKeeps pre := fun pre' b h => hkeep pre' b (h.trans hpre)
    obtain ⟨hparser, hcolours⟩ := run_vt ht
    rw [Agrees, hparser, hcolours]
    exact (stream_colours pre).2 hkeep'
  · exact reset_complete_iff hstate (hvt t ht) (inside_run (inside_fresh fb) ht)

/-- `ESC [ 1 m` and `ESC [ 7 m`, and a reset after the first. -/
theorem bold_is_forgotten :
    (∃ t, run narrow (fresh narrow) [0x1B, 0x5B, 0x31, 0x6D, 0x1B, 0x5B, 0x37, 0x6D] = some t ∧ ¬ t.Agrees) ∧
      ∃ t, run narrow (fresh narrow) [0x1B, 0x5B, 0x31, 0x6D] = some t ∧ ¬ ResetComplete narrow t := by
  constructor
  · have hcolours : (run narrow (fresh narrow) [0x1B, 0x5B, 0x31, 0x6D, 0x1B, 0x5B, 0x37, 0x6D]).map
        (fun t => decide (t.screen.colours = t.vt.colours)) = some false := by decide +kernel
    obtain ⟨t, ht, hnot⟩ := Option.map_eq_some_iff.1 hcolours
    have hne : ¬ t.screen.colours = t.vt.colours := of_decide_eq_false hnot
    exact ⟨t, ht, hne⟩
  · have hbold : (run narrow (fresh narrow) [0x1B, 0x5B, 0x31, 0x6D]).map
        (fun t => (t.vt.bold, decide (t.vt.state = .normal))) = some (true, true) := by decide +kernel
    obtain ⟨t, ht, heq⟩ := Option.map_eq_some_iff.1 hbold
    have hvt : t.vt.InPalette := by
      rw [(run_vt ht).1]
      exact (stream_colours _).1
    have hstate : t.vt.state = .normal := of_decide_eq_true (congrArg Prod.snd heq)
    refine ⟨t, ht, fun h => ?_⟩
    have hnew := (reset_complete_iff hstate hvt (inside_run (inside_fresh narrow) ht)).1 h
    exact absurd (hnew.bold.symm.trans (congrArg Prod.fst heq)) (by decide)

end Terminal

end Rost.Gop
