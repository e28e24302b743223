import Rost.Gop.Screen

/-!
# Erasing

To erase a cell should be to draw a space in it.  Drawing converts the colour once, on its way to the framebuffer, and so
do the fillings of whole lines; but the cells of a line are filled with a colour that is converted twice.  And the rows that
scrolling exposes begin with the lines that no row covers, when the height is not a multiple of 16.  Everything else is as
it should be (`erases_iff`).
-/

namespace Rost.Gop

namespace Framebuffer

variable (fb : Framebuffer)

/-! ### Colours -/

def red (color : Argb) : Nat := color.toNat / 65536 % 256
def green (color : Argb) : Nat := color.toNat / 256 % 256
def blue (color : Argb) : Nat := color.toNat % 256

/-- Three bytes, the first one highest. -/
private theorem toNat_bytes (a b c : BitVec 32) (ha : a.toNat < 256) (hb : b.toNat < 256) (hc : c.toNat < 256) :
    (a <<< 16 ||| b <<< 8 ||| c).toNat = a.toNat * 65536 + b.toNat * 256 + c.toNat := by
  have hshift : ∀ (x : BitVec 32) (k : Nat), x.toNat < 256 → k ≤ 16 → (x <<< k).toNat = x.toNat <<< k := by
    intro x k hx hk
    have hpow : 2 ^ k ≤ 2 ^ 16 := Nat.pow_le_pow_right (by decide) hk
    have hlt : x.toNat * 2 ^ k < 256 * 2 ^ 16 := Nat.mul_lt_mul_of_lt_of_le hx hpow (by decide)
    rw [BitVec.toNat_shiftLeft, Nat.shiftLeft_eq, Nat.mod_eq_of_lt (by omega)]
  have hab : (a.toNat <<< 8 + b.toNat) <<< 8 = a.toNat <<< 16 ||| b.toNat <<< 8 := by
    rw [Nat.shiftLeft_add_eq_or_of_lt hb, Nat.shiftLeft_or_distrib, ← Nat.shiftLeft_add]
  rw [BitVec.toNat_or, BitVec.toNat_or, hshift a 16 ha (by decide), hshift b 8 hb (by decide), ← hab,
    ← Nat.shiftLeft_add_eq_or_of_lt hc, Nat.shiftLeft_eq, Nat.shiftLeft_eq]
  omega

theorem toNat_toNative (color : Argb) : (fb.toNative color).toNat =
    if fb.format = 0 then red color * 65536 + green color * 256 + blue color
    else blue color * 65536 + green color * 256 + red color := by
  have hbyte : ∀ k, (color >>> k &&& 0xFF).toNat = color.toNat / 2 ^ k % 256 := by
    intro k
    rw [BitVec.toNat_and, BitVec.toNat_ushiftRight, Nat.shiftRight_eq_div_pow]
    exact Nat.and_two_pow_sub_one_eq_mod _ 8
  have hred := hbyte 16
  have hgreen := hbyte 8
  have hblue := hbyte 0
  rw [BitVec.ushiftRight_zero] at hblue
  have hlt : ∀ n, n % 256 < 256 := fun n => Nat.mod_lt n (by decide)
  unfold toNative
  simp only
  split
  · rw [toNat_bytes _ _ _ (hred ▸ hlt _) (hgreen ▸ hlt _) (hblue ▸ hlt _), hred, hgreen, hblue]
    simp [red, green, blue]
  · rw [toNat_bytes _ _ _ (hblue ▸ hlt _) (hgreen ▸ hlt _) (hred ▸ hlt _), hred, hgreen, hblue]
    simp [red, green, blue]

/-- A colour can be converted once more if nothing is exchanged. -/
theorem toNative_toNative_iff (color : Argb) :
    fb.toNative (fb.toNative color) = fb.toNative color ↔ fb.format = 0 ∨ red color = blue color := by
  have hbytes : ∀ (x : Argb) (r g b : Nat), r < 256 → g < 256 → b < 256 → x.toNat = r * 65536 + g * 256 + b →
      red x = r ∧ green x = g ∧ blue x = b := by
    intro x r g b hr hg hb hx
    unfold red green blue
    omega
  have hnative := toNat_toNative fb color
  have hagain := toNat_toNative fb (fb.toNative color)
  have hred : red color < 256 := Nat.mod_lt _ (by decide)
  have hgreen : green color < 256 := Nat.mod_lt _ (by decide)
  have hblue : blue color < 256 := Nat.mod_lt _ (by decide)
  rw [← BitVec.toNat_inj, hagain]
  by_cases hformat : fb.format = 0
  · rw [if_pos hformat] at hnative ⊢
    obtain ⟨hr, hg, hb⟩ := hbytes _ _ _ _ hred hgreen hblue hnative
    rw [hr, hg, hb, hnative]
    simp [hformat]
  · rw [if_neg hformat] at hnative ⊢
    obtain ⟨hr, hg, hb⟩ := hbytes _ _ _ _ hblue hgreen hred hnative
    rw [hr, hg, hb, hnative]
    omega

/-! ### Painting -/

/-- The word of a pixel. -/
def pixel (s : Screen) (x y : Nat) : Option Argb := s.pixels[y * fb.stride + x]?

/-- The pixels of a region get a value, and nothing else changes. -/
structure Paints (R : Nat → Nat → Prop) (v : Argb) (s s' : Screen) : Prop where
  repaints : Repaints s s'
  inside : ∀ x y, x < fb.stride → R x y → fb.pixel s' x y = some v
  outside : ∀ x y, x < fb.stride → ¬ R x y → fb.pixel s' x y = fb.pixel s x y

theorem colorBg_of_repaints {s s' : Screen} (h : Repaints s s') : s'.colorBg = s.colorBg := by
  obtain ⟨pixels, rfl, -⟩ := h
  rfl

variable {fb}

namespace Paints

variable {R R' : Nat → Nat → Prop} {v : Argb} {s t s' : Screen}

theorem refl (h : ∀ x y, x < fb.stride → ¬ R x y) (v : Argb) (s : Screen) : fb.Paints R v s s :=
  ⟨Repaints.refl s, fun x y hx hR => absurd hR (h x y hx), fun _ _ _ _ => rfl⟩

theorem congr (h : fb.Paints R v s s') (hR : ∀ x y, x < fb.stride → (R x y ↔ R' x y)) : fb.Paints R' v s s' :=
  ⟨h.repaints, fun x y hx hR' => h.inside x y hx ((hR x y hx).2 hR'),
    fun x y hx hR' => h.outside x y hx fun hR'' => hR' ((hR x y hx).1 hR'')⟩

theorem trans (h : fb.Paints R v s t) (h' : fb.Paints R' v t s') : fb.Paints (fun x y => R x y ∨ R' x y) v s s' := by
  refine ⟨h.repaints.trans h'.repaints, fun x y hx hR => ?_, fun x y hx hR => ?_⟩
  · by_cases hR' : R' x y
    · exact h'.inside x y hx hR'
    · rw [h'.outside x y hx hR']
      exact h.inside x y hx (hR.resolve_right hR')
  · rw [not_or] at hR
    rw [h'.outside x y hx hR.2, h.outside x y hx hR.1]

end Paints

/-- The place of a pixel says which one it is. -/
private theorem place_inj {w x y x' y' : Nat} (hx : x < w) (hx' : x' < w) (h : y * w + x = y' * w + x') : x = x' ∧ y = y' := by
  have hpos : 0 < w := Nat.lt_of_le_of_lt (Nat.zero_le x) hx
  have hy : (x + w * y) / w = (x' + w * y') / w := by
    rw [Nat.add_comm x, Nat.add_comm x', Nat.mul_comm w, Nat.mul_comm w, h]
  rw [Nat.add_mul_div_left _ _ hpos, Nat.add_mul_div_left _ _ hpos, Nat.div_eq_of_lt hx, Nat.div_eq_of_lt hx',
    Nat.zero_add, Nat.zero_add] at hy
  subst hy
  exact ⟨by omega, rfl⟩

private theorem place_lt {x y : Nat} (hx : x < fb.stride) (hy : y < fb.height) : y * fb.stride + x < fb.total := by
  have hrows : (y + 1) * fb.stride ≤ fb.height * fb.stride := Nat.mul_le_mul_right _ hy
  rw [Nat.add_mul] at hrows
  rw [total, Nat.mul_comm fb.stride]
  omega

variable {f : Nat → Screen → Option Screen} {s s' : Screen} {v bg : Argb}

theorem paints_putPixel {x y : Nat} {color : Argb} (hx : x < fb.stride) (h : fb.putPixel x y color s = some s') :
    fb.Paints (fun x' y' => x' = x ∧ y' = y) (fb.toNative color) s s' := by
  refine ⟨repaints_putPixel h, ?_, ?_⟩
  all_goals
    obtain ⟨pixels, hset, hs'⟩ := Option.bind_eq_some_iff.1 h
    cases hs'
    unfold Lib.set? at hset
    split at hset
    case isFalse => cases hset
    rename_i hlt
    cases hset
  · rintro _ _ - ⟨rfl, rfl⟩
    exact List.getElem?_set_self hlt
  · intro x' y' hx' hne
    refine List.getElem?_set_ne fun heq => hne ?_
    exact place_inj hx' hx heq.symm

/-- The rounds of a loop paint their regions. -/
theorem paints_forRange {R : Nat → Nat → Nat → Prop} {n : Nat}
    (hf : ∀ i < n, ∀ s s', s.colorBg = bg → f i s = some s' → fb.Paints (R i) v s s') (hbg : s.colorBg = bg)
    (h : forRange n f s = some s') : fb.Paints (fun x y => ∃ i < n, R i x y) v s s' := by
  have hall : ∀ i ∈ List.range n, i < n := fun i hi => List.mem_range.1 hi
  have hlist : ∀ is : List Nat, (∀ i ∈ is, i < n) → ∀ s, s.colorBg = bg →
      is.foldlM (fun s i => f i s) s = some s' → fb.Paints (fun x y => ∃ i ∈ is, R i x y) v s s' := by
    intro is his
    induction is with
    | nil =>
      intro s _ h
      cases h
      refine Paints.refl (fun x y _ hR => ?_) v _
      obtain ⟨i, hi, -⟩ := hR
      cases hi
    | cons i is ih =>
      intro s hbg h
      rw [List.foldlM_cons] at h
      obtain ⟨t, ht, hrest⟩ := Option.bind_eq_some_iff.1 h
      have hfirst := hf i (his i (by simp)) s t hbg ht
      have hlater := ih (fun j hj => his j (by simp [hj])) t ((colorBg_of_repaints hfirst.repaints).trans hbg) hrest
      exact (hfirst.trans hlater).congr fun x y _ => by simp
  exact (hlist (List.range n) hall s hbg h).congr fun x y _ => by simp

theorem paints_upTo {R : Nat → Nat → Nat → Prop} {i last : Nat}
    (hf : ∀ j, i ≤ j → j ≤ last → ∀ s s', s.colorBg = bg → f j s = some s' → fb.Paints (R j) v s s')
    (hbg : s.colorBg = bg) (h : upTo f i last s = some s') :
    fb.Paints (fun x y => ∃ j, i ≤ j ∧ j ≤ last ∧ R j x y) v s s' := by
  unfold upTo at h
  generalize hm : last + 1 - i = m at h
  induction m generalizing i s with
  | zero =>
    cases h
    refine Paints.refl (fun x y _ hR => ?_) v _
    obtain ⟨j, hij, hj, -⟩ := hR
    omega
  | succ m ih =>
    obtain ⟨t, ht, hrest⟩ := Option.bind_eq_some_iff.1 h
    obtain ⟨k, hadd, hrest⟩ := Option.bind_eq_some_iff.1 hrest
    obtain ⟨rfl, -⟩ := add?_eq_some hadd
    have hfirst := hf i (le_refl i) (by omega) s t hbg ht
    have hlater := ih (fun j (hij : i + 1 ≤ j) hj => hf j (by omega) hj) ((colorBg_of_repaints hfirst.repaints).trans hbg) (by omega) hrest
    refine (hfirst.trans hlater).congr fun x y _ => ⟨?_, ?_⟩
    · rintro (hR | ⟨j, hij, hj, hR⟩)
      · exact ⟨i, le_refl i, by omega, hR⟩
      · exact ⟨j, by omega, hj, hR⟩
    · rintro ⟨j, hij, hj, hR⟩
      by_cases hji : j = i
      · subst hji
        exact Or.inl hR
      · exact Or.inr ⟨j, by omega, hj, hR⟩

/-- The pixels of a cell, as far as they are of a kind. -/
theorem paints_cellPixels {B : Nat → Nat → Prop} {px py : Nat} {paint : Nat → Nat → Nat → Nat → Screen → Option Screen}
    (hpaint : ∀ gx < fontW, ∀ gy < fontH, ∀ s s', s.colorBg = bg → paint gx gy (px + gx) (py + gy) s = some s' →
      fb.Paints (fun x y => x = px + gx ∧ y = py + gy ∧ B x y) v s s') (hbg : s.colorBg = bg)
    (h : cellPixels px py paint s = some s') :
    fb.Paints (fun x y => (px ≤ x ∧ x < px + fontW) ∧ (py ≤ y ∧ y < py + fontH) ∧ B x y) v s s' := by
  have hpixel : ∀ gy < fontH, ∀ gx < fontW, ∀ s s', s.colorBg = bg →
      (add? px gx >>= fun x => add? py gy >>= fun y => paint gx gy x y s) = some s' →
      fb.Paints (fun x y => x = px + gx ∧ y = py + gy ∧ B x y) v s s' := by
    intro gy hgy gx hgx s s' hbg h
    obtain ⟨x, hadd, h⟩ := Option.bind_eq_some_iff.1 h
    obtain ⟨rfl, -⟩ := add?_eq_some hadd
    obtain ⟨y, hadd, h⟩ := Option.bind_eq_some_iff.1 h
    obtain ⟨rfl, -⟩ := add?_eq_some hadd
    exact hpaint gx hgx gy hgy s s' hbg h
  have hrows := paints_forRange (fun gy hgy s s' hbg h => paints_forRange (hpixel gy hgy) hbg h) hbg h
  refine hrows.congr fun x y _ => ⟨?_, ?_⟩
  · rintro ⟨gy, hgy, gx, hgx, rfl, rfl, hB⟩
    exact ⟨⟨by omega, by omega⟩, ⟨by omega, by omega⟩, hB⟩
  · rintro ⟨⟨hx, hx'⟩, ⟨hy, hy'⟩, hB⟩
    exact ⟨y - py, by omega, x - px, by omega, by omega, by omega, hB⟩

private theorem mul?_eq_some {w a b c : Nat} (h : mul? w a b = some c) : c = a * b := by
  unfold mul? at h
  split at h
  · exact (Option.some.inj h).symm
  · cases h

private theorem glyphRow_space (gy : Nat) : glyphRow 0x20 gy = 0 := by
  have hglyph : glyphs.getD 0 0 = 0 := rfl
  have hrow : glyphRow 0x20 gy = (glyphs.getD 0 0 >>> (8 * (15 - gy))).setWidth 8 := rfl
  rw [hrow, hglyph]
  simp

/-- A space in a cell of the screen. -/
theorem paints_space (hfb : fb.Usable) {col row : Nat} (hcol : col < fb.cols) (hrow : row < fb.rows)
    (h : fb.drawChar col row 0x20 s = some s') :
    fb.Paints (fun x y => x / fontW = col ∧ y / fontH = row) (fb.toNative s.colorBg) s s' := by
  have hstride := hfb.stride
  obtain ⟨hright, hbottom⟩ := cell_lt hcol hrow
  obtain ⟨px, hmul, h⟩ := Option.bind_eq_some_iff.1 h
  obtain rfl := mul?_eq_some hmul
  obtain ⟨py, hmul, h⟩ := Option.bind_eq_some_iff.1 h
  obtain rfl := mul?_eq_some hmul
  obtain ⟨right, hadd, h⟩ := Option.bind_eq_some_iff.1 h
  obtain ⟨rfl, -⟩ := add?_eq_some hadd
  rw [if_neg (by omega)] at h
  obtain ⟨bottom, hadd, h⟩ := Option.bind_eq_some_iff.1 h
  obtain ⟨rfl, -⟩ := add?_eq_some hadd
  rw [if_neg (by omega)] at h
  refine (paints_cellPixels (B := fun _ _ => True) (fun gx hgx gy hgy t t' hbg h => ?_) rfl h).congr fun x y _ => ?_
  · rw [glyphRow_space, if_neg (by simp), hbg] at h
    exact (paints_putPixel (by omega) h).congr fun x y _ => by simp
  · unfold fontW fontH
    constructor
    · rintro ⟨hx, hy, -⟩
      omega
    · rintro ⟨rfl, rfl⟩
      exact ⟨by omega, by omega, trivial⟩

theorem paints_eraseCell (hfb : fb.Usable) {native : Argb} {row col : Nat}
    (h : fb.eraseCell native (row * fontH) col s = some s') :
    fb.Paints (fun x y => x / fontW = col ∧ y / fontH = row ∧ x < fb.width ∧ y < fb.height) (fb.toNative native) s s' := by
  have hstride := hfb.stride
  obtain ⟨px, hmul, h⟩ := Option.bind_eq_some_iff.1 h
  obtain rfl := mul?_eq_some hmul
  refine (paints_cellPixels (B := fun x y => x < fb.width ∧ y < fb.height) (fun gx hgx gy hgy t t' _ h => ?_) rfl h).congr
    fun x y _ => ?_
  · split at h
    · rename_i hin
      refine (paints_putPixel (by omega) h).congr fun x y _ => ⟨?_, fun hR => ⟨hR.1, hR.2.1⟩⟩
      rintro ⟨rfl, rfl⟩
      exact ⟨rfl, rfl, hin⟩
    · rename_i hout
      cases h
      refine Paints.refl (fun x y _ hR => hout ?_) _ _
      obtain ⟨rfl, rfl, hin⟩ := hR
      exact hin
  · unfold fontW fontH
    omega

/-- The cells of a range, with rows between that are erased as a whole. -/
theorem paints_eraseCells (hfb : fb.Usable) {colStart rowStart colEnd rowEnd : Nat}
    (h : fb.eraseCells colStart rowStart colEnd rowEnd s = some s') :
    fb.Paints (fun x y => (x < fb.width ∧ y < fb.height) ∧ (rowStart ≤ y / fontH ∧ y / fontH ≤ rowEnd) ∧
      (if y / fontH = rowStart then colStart else 0) ≤ x / fontW ∧
      x / fontW ≤ if y / fontH = rowEnd then colEnd else fb.cols - 1) (fb.toNative (fb.toNative s.colorBg)) s s' := by
  refine (paints_upTo (R := fun row x y => (x < fb.width ∧ y < fb.height) ∧ y / fontH = row ∧
      (if row = rowStart then colStart else 0) ≤ x / fontW ∧ x / fontW ≤ if row = rowEnd then colEnd else fb.cols - 1)
    (fun row _ _ t t' hbg h => ?_) rfl h).congr fun x y _ => ?_
  · obtain ⟨py, hmul, h⟩ := Option.bind_eq_some_iff.1 h
    obtain rfl := mul?_eq_some hmul
    refine (paints_upTo (fun col _ _ t t' _ h => paints_eraseCell hfb h) hbg h).congr fun x y _ => ⟨?_, ?_⟩
    · rintro ⟨col, hge, hle, rfl, hy, hin⟩
      exact ⟨hin, hy, hge, hle⟩
    · rintro ⟨hin, hy, hge, hle⟩
      exact ⟨x / fontW, hge, hle, rfl, hy, hin⟩
  · constructor
    · rintro ⟨row, hge, hle, hin, rfl, hcols⟩
      exact ⟨hin, ⟨hge, hle⟩, hcols⟩
    · rintro ⟨hin, ⟨hge, hle⟩, hcols⟩
      exact ⟨y / fontH, hge, hle, hin, rfl, hcols⟩

/-! ### What is erased, and how -/

/-- A cell is as a space leaves it. -/
def Blank (fb : Framebuffer) (s : Screen) (col row : Nat) : Prop :=
  ∃ t, fb.drawChar col row 0x20 s = some t ∧ ∀ gx < fontW, ∀ gy < fontH,
    fb.pixel s (col * fontW + gx) (row * fontH + gy) = fb.pixel t (col * fontW + gx) (row * fontH + gy)

theorem blank_iff (hfb : fb.Usable) {col row : Nat} (hcol : col < fb.cols) (hrow : row < fb.rows)
    (hlen : s.pixels.length = fb.total) : fb.Blank s col row ↔ ∀ gx < fontW, ∀ gy < fontH,
      fb.pixel s (col * fontW + gx) (row * fontH + gy) = some (fb.toNative s.colorBg) := by
  have hright := (cell_lt hcol hrow).1
  have hstride := hfb.stride
  obtain ⟨t, ht⟩ := drawChar_isSome hfb hcol hrow 0x20 hlen
  have hpaints := paints_space hfb hcol hrow ht
  have hspace : ∀ gx < fontW, ∀ gy < fontH,
      fb.pixel t (col * fontW + gx) (row * fontH + gy) = some (fb.toNative s.colorBg) := by
    intro gx hgx gy hgy
    refine hpaints.inside _ _ (by omega) ?_
    unfold fontW fontH at *
    omega
  constructor
  · rintro ⟨u, hu, hcell⟩ gx hgx gy hgy
    rw [ht] at hu
    cases hu
    rw [hcell gx hgx gy hgy, hspace gx hgx gy hgy]
  · intro hcell
    exact ⟨t, ht, fun gx hgx gy hgy => by rw [hcell gx hgx gy hgy, hspace gx hgx gy hgy]⟩

end Framebuffer

/-- `CSI K`, `CSI J`, `clear_screen` and scrolling. -/
inductive Erasure where
  | line (mode : Nat)
  | display (mode : Nat)
  | clear
  | up (n : Nat)
  | down (n : Nat)
deriving DecidableEq

namespace Erasure

variable (fb : Framebuffer)

def run : Erasure → Screen → Option Screen
  | .line mode => fb.eraseLine mode
  | .display mode => fb.eraseDisplay mode
  | .clear => fb.clearScreen
  | .up n => fb.scrollUpN n
  | .down n => fb.scrollDownN n

/-- The cells that are erased, or exposed. -/
def Selects (s : Screen) : Erasure → Nat → Nat → Prop
  | .line 0, col, row => row = s.cursorRow ∧ s.cursorCol ≤ col
  | .line 1, col, row => row = s.cursorRow ∧ col ≤ s.cursorCol
  | .line _, _, row => row = s.cursorRow
  | .display 0, col, row => s.cursorRow < row ∨ row = s.cursorRow ∧ s.cursorCol ≤ col
  | .display 1, col, row => row < s.cursorRow ∨ row = s.cursorRow ∧ col ≤ s.cursorCol
  | .display _, _, _ => True
  | .clear, _, _ => True
  | .up n, _, row => fb.rows ≤ row + n
  | .down n, _, row => row < n

/-- `CSI K` and `CSI J` -/
def IsSequence : Erasure → Prop
  | .line _ | .display _ => True
  | _ => False

/-- The cells that are erased are as spaces leave them, and the sequences change no other cell. -/
structure AsSpaces (e : Erasure) (s s' : Screen) : Prop where
  blank : ∀ col < fb.cols, ∀ row < fb.rows, e.Selects fb s col row → fb.Blank s' col row
  kept : e.IsSequence → ∀ col < fb.cols, ∀ row < fb.rows, ¬ e.Selects fb s col row → ∀ gx < fontW, ∀ gy < fontH,
    fb.pixel s' (col * fontW + gx) (row * fontH + gy) = fb.pixel s (col * fontW + gx) (row * fontH + gy)

/-- The colour that is converted twice is not changed by it; and where rows come in from below, the lines under the last row
have the background already. -/
def Clean (s : Screen) : Erasure → Prop
  | .line _ | .display 0 | .display 1 => fb.format = 0 ∨ Framebuffer.red s.colorBg = Framebuffer.blue s.colorBg
  | .display _ | .clear | .down _ => True
  | .up n => n = 0 ∨ fb.height ≤ fontH * n ∨ ∀ x < fontW * fb.cols, ∀ y, fontH * fb.rows ≤ y → y < fb.height →
    fb.pixel s x y = some (fb.toNative s.colorBg)

end Erasure

namespace Framebuffer

variable {fb : Framebuffer} {s s' : Screen} {e : Erasure}

/-- A pixel of a cell. -/
private theorem cell_pixel (hfb : fb.Usable) {col row gx gy : Nat} (hcol : col < fb.cols) (hrow : row < fb.rows)
    (hgx : gx < fontW) (hgy : gy < fontH) : col * fontW + gx < fb.stride ∧ col * fontW + gx < fb.width ∧
      row * fontH + gy < fb.height ∧ (col * fontW + gx) / fontW = col ∧ (row * fontH + gy) / fontH = row := by
  have hstride := hfb.stride
  obtain ⟨hright, hbottom⟩ := cell_lt hcol hrow
  unfold fontW fontH at *
  omega

private theorem asSpaces_of_clearScreen (hfb : fb.Usable) (hlen : s.pixels.length = fb.total)
    (h : fb.clearScreen s = some s') (hall : e.IsSequence → ∀ col row, e.Selects fb s col row) : e.AsSpaces fb s s' := by
  rw [clearScreen_eq hlen] at h
  cases h
  refine ⟨fun col hcol row hrow _ => ?_, fun he col _ row _ hnot => absurd (hall he col row) hnot⟩
  rw [blank_iff hfb hcol hrow (by simp)]
  intro gx hgx gy hgy
  obtain ⟨hx, -, hy, -⟩ := cell_pixel hfb hcol hrow hgx hgy
  exact List.getElem?_replicate_of_lt (place_lt hx hy)

/-- The cells of a region get the colour that is converted twice. -/
private theorem asSpaces_iff_of_paints (hfb : fb.Usable) (hlen : s.pixels.length = fb.total) {R : Nat → Nat → Prop}
    (h : fb.Paints R (fb.toNative (fb.toNative s.colorBg)) s s')
    (hR : ∀ col < fb.cols, ∀ row < fb.rows, ∀ gx < fontW, ∀ gy < fontH,
      (R (col * fontW + gx) (row * fontH + gy) ↔ e.Selects fb s col row))
    (hsome : ∃ col < fb.cols, ∃ row < fb.rows, e.Selects fb s col row) :
    e.AsSpaces fb s s' ↔ fb.format = 0 ∨ red s.colorBg = blue s.colorBg := by
  have hbg := colorBg_of_repaints h.repaints
  have hlen' : s'.pixels.length = fb.total := by
    obtain ⟨pixels, rfl, hpixels⟩ := h.repaints
    exact hpixels.trans hlen
  have hpixel : ∀ col < fb.cols, ∀ row < fb.rows, e.Selects fb s col row → ∀ gx < fontW, ∀ gy < fontH,
      fb.pixel s' (col * fontW + gx) (row * fontH + gy) = some (fb.toNative (fb.toNative s.colorBg)) := by
    intro col hcol row hrow hsel gx hgx gy hgy
    exact h.inside _ _ (cell_pixel hfb hcol hrow hgx hgy).1 ((hR col hcol row hrow gx hgx gy hgy).2 hsel)
  rw [← toNative_toNative_iff]
  constructor
  · intro hspaces
    obtain ⟨col, hcol, row, hrow, hsel⟩ := hsome
    have hblank := (blank_iff hfb hcol hrow hlen').1 (hspaces.blank col hcol row hrow hsel) 0 (by decide) 0 (by decide)
    rw [hpixel col hcol row hrow hsel 0 (by decide) 0 (by decide), hbg] at hblank
    exact Option.some.inj hblank
  · intro hnative
    refine ⟨fun col hcol row hrow hsel => ?_, fun _ col hcol row hrow hnot gx hgx gy hgy => ?_⟩
    · rw [blank_iff hfb hcol hrow hlen', hbg]
      intro gx hgx gy hgy
      rw [hpixel col hcol row hrow hsel gx hgx gy hgy, hnative]
    · exact h.outside _ _ (cell_pixel hfb hcol hrow hgx hgy).1
        fun hin => hnot ((hR col hcol row hrow gx hgx gy hgy).1 hin)

private theorem asSpaces_line_iff (hfb : fb.Usable) (hin : fb.Inside s) {mode : Nat} (h : fb.eraseLine mode s = some s') :
    (Erasure.line mode).AsSpaces fb s s' ↔ fb.format = 0 ∨ red s.colorBg = blue s.colorBg := by
  have hcols := hfb.cols
  have hrows := hfb.rows
  have hcol := hin.col
  have hrow := hin.row
  have hsome : ∃ col < fb.cols, ∃ row < fb.rows, (Erasure.line mode).Selects fb s col row := by
    refine ⟨s.cursorCol, by omega, s.cursorRow, by omega, ?_⟩
    unfold Erasure.Selects
    split <;> simp_all
  unfold eraseLine at h
  split at h
  all_goals
    refine asSpaces_iff_of_paints hfb hin.pixels (paints_eraseCells hfb h) (fun col hcol row hrow gx hgx gy hgy => ?_) hsome
    obtain ⟨-, hx, hy, hdivx, hdivy⟩ := cell_pixel hfb hcol hrow hgx hgy
    rw [hdivx, hdivy]
    unfold Erasure.Selects
    by_cases hcursor : row = s.cursorRow
    · subst hcursor
      simp only [hx, hy, if_true, true_and, iff_true]
      omega
    · simp only [hcursor, false_and, iff_false]
      omega

/-- The pixels of the cells are on the screen. -/
private theorem on_screen (hfb : fb.Usable) {x y : Nat} (hx : x / fontW ≤ fb.cols - 1) (hy : y / fontH ≤ fb.rows - 1) :
    x < fb.width ∧ y < fb.height := by
  have hcols := hfb.cols
  have hrows := hfb.rows
  unfold Framebuffer.cols Framebuffer.rows fontW fontH at *
  omega

/-- The rest of the line and the lines below. -/
private theorem paints_below (hfb : fb.Usable) (hin : fb.Inside s) (h : fb.eraseDisplay 0 s = some s') :
    fb.Paints (fun x y => (x / fontW ≤ fb.cols - 1 ∧ y / fontH ≤ fb.rows - 1) ∧
      (s.cursorRow < y / fontH ∨ y / fontH = s.cursorRow ∧ s.cursorCol ≤ x / fontW))
      (fb.toNative (fb.toNative s.colorBg)) s s' := by
  have hcol := hin.col
  have hrow := hin.row
  obtain ⟨t, ht, h⟩ := Option.bind_eq_some_iff.1 h
  have hfirst := paints_eraseCells hfb ht
  split at h
  · obtain ⟨below, hadd, h⟩ := Option.bind_eq_some_iff.1 h
    obtain ⟨rfl, -⟩ := add?_eq_some hadd
    have hsecond := paints_eraseCells hfb h
    rw [colorBg_of_repaints hfirst.repaints] at hsecond
    refine (hfirst.trans hsecond).congr fun x y _ => ?_
    have hxy := on_screen hfb (x := x) (y := y)
    generalize x / fontW = col at *
    generalize y / fontH = row at *
    split_ifs <;> omega
  · cases h
    refine hfirst.congr fun x y _ => ?_
    have hxy := on_screen hfb (x := x) (y := y)
    generalize x / fontW = col at *
    generalize y / fontH = row at *
    split_ifs <;> omega

/-- The lines above and the line up to the cursor. -/
private theorem paints_above (hfb : fb.Usable) (hin : fb.Inside s) (h : fb.eraseDisplay 1 s = some s') :
    fb.Paints (fun x y => (x / fontW ≤ fb.cols - 1 ∧ y / fontH ≤ fb.rows - 1) ∧
      (y / fontH < s.cursorRow ∨ y / fontH = s.cursorRow ∧ x / fontW ≤ s.cursorCol))
      (fb.toNative (fb.toNative s.colorBg)) s s' := by
  have hcol := hin.col
  have hrow := hin.row
  obtain ⟨t, ht, h⟩ := Option.bind_eq_some_iff.1 h
  have hsecond := paints_eraseCells hfb h
  split at ht
  · have hfirst := paints_eraseCells hfb ht
    rw [colorBg_of_repaints hfirst.repaints] at hsecond
    refine (hfirst.trans hsecond).congr fun x y _ => ?_
    have hxy := on_screen hfb (x := x) (y := y)
    generalize x / fontW = col at *
    generalize y / fontH = row at *
    split_ifs <;> omega
  · cases ht
    refine hsecond.congr fun x y _ => ?_
    have hxy := on_screen hfb (x := x) (y := y)
    generalize x / fontW = col at *
    generalize y / fontH = row at *
    split_ifs <;> omega

private theorem asSpaces_display_iff (hfb : fb.Usable) (hin : fb.Inside s) {mode : Nat}
    (h : fb.eraseDisplay mode s = some s') : (Erasure.display mode).AsSpaces fb s s' ↔ (Erasure.display mode).Clean fb s := by
  have hcols := hfb.cols
  have hrows := hfb.rows
  have hcol : s.cursorCol < fb.cols := by
    have hle := hin.col
    omega
  have hrow : s.cursorRow < fb.rows := by
    have hle := hin.row
    omega
  match mode, h with
  | 0, h =>
    refine asSpaces_iff_of_paints hfb hin.pixels (paints_below hfb hin h) (fun col hcol row hrow gx hgx gy hgy => ?_)
      ⟨s.cursorCol, hcol, s.cursorRow, hrow, Or.inr ⟨rfl, le_refl _⟩⟩
    obtain ⟨-, -, -, hdivx, hdivy⟩ := cell_pixel hfb hcol hrow hgx hgy
    rw [hdivx, hdivy]
    simp only [Erasure.Selects]
    omega
  | 1, h =>
    refine asSpaces_iff_of_paints hfb hin.pixels (paints_above hfb hin h) (fun col hcol row hrow gx hgx gy hgy => ?_)
      ⟨s.cursorCol, hcol, s.cursorRow, hrow, Or.inr ⟨rfl, le_refl _⟩⟩
    obtain ⟨-, -, -, hdivx, hdivy⟩ := cell_pixel hfb hcol hrow hgx hgy
    rw [hdivx, hdivy]
    simp only [Erasure.Selects]
    omega
  | mode + 2, h =>
    exact iff_of_true (asSpaces_of_clearScreen hfb hin.pixels h fun _ _ _ => by simp [Erasure.Selects])
      (by simp [Erasure.Clean])

/-- The pixels after the lines have moved up. -/
private theorem pixel_scrollUp (hlen : s.pixels.length = fb.total) {x y n : Nat} (hx : x < fb.stride) (hy : y < fb.height)
    (hn : fontH * n < fb.height) : fb.pixel { s with
      pixels := s.pixels.drop (fb.stride * fontH * n) ++
        List.replicate (fb.stride * fontH * n) (fb.toNative s.colorBg) } x y =
        if y + fontH * n < fb.height then fb.pixel s x (y + fontH * n) else some (fb.toNative s.colorBg) := by
  have hlines : fb.stride * fontH * n = fontH * n * fb.stride := by rw [Nat.mul_assoc, Nat.mul_comm]
  have hplace : (y + fontH * n) * fb.stride + x = fb.stride * fontH * n + (y * fb.stride + x) := by
    rw [hlines, Nat.add_mul]
    omega
  have hshift : fb.stride * fontH * n ≤ fb.total := by
    rw [hlines, total, Nat.mul_comm fb.stride]
    exact Nat.mul_le_mul_right _ (Nat.le_of_lt hn)
  have hlast := place_lt hx hy
  unfold pixel
  rw [List.getElem?_append, List.length_drop, hlen, List.getElem?_drop, ← hplace]
  by_cases hin : y + fontH * n < fb.height
  · have hstays := place_lt hx hin
    rw [if_pos hin, if_pos (by omega)]
  · have hleaves : fb.total ≤ (y + fontH * n) * fb.stride + x := by
      have hmul : fb.height * fb.stride ≤ (y + fontH * n) * fb.stride := Nat.mul_le_mul_right _ (Nat.le_of_not_lt hin)
      rw [total, Nat.mul_comm fb.stride]
      omega
    rw [if_neg hin, if_neg (by omega), List.getElem?_replicate_of_lt (by omega)]

/-- A whole number of lines is less than the screen if its words are. -/
private theorem lines_lt_iff (hfb : fb.Usable) {n : Nat} : fb.stride * fontH * n < fb.total ↔ fontH * n < fb.height := by
  have hwidth : 0 < fb.stride := by
    have hcols := hfb.cols
    have hstride := hfb.stride
    have hle : fb.cols ≤ fb.width := Nat.div_le_self _ _
    omega
  rw [total, Nat.mul_assoc, Nat.mul_lt_mul_left hwidth]

private theorem asSpaces_up_iff (hfb : fb.Usable) (hin : fb.Inside s) {n : Nat} (h : fb.scrollUpN n s = some s') :
    (Erasure.up n).AsSpaces fb s s' ↔ (Erasure.up n).Clean fb s := by
  have hmul : fb.stride * fontH * 4 * n < 2 ^ 64 := lt_of_mul?_bind h
  by_cases hless : fb.stride * fontH * n < fb.total
  · have hlines := (lines_lt_iff hfb).1 hless
    have hlen : s'.pixels.length = fb.total := by
      rw [scrollUpN_eq hin.pixels hmul hless] at h
      cases h
      rw [List.length_append, List.length_drop, List.length_replicate, hin.pixels]
      omega
    have hpixel : s'.colorBg = s.colorBg ∧ ∀ x < fb.stride, ∀ y < fb.height, fb.pixel s' x y =
        if y + fontH * n < fb.height then fb.pixel s x (y + fontH * n) else some (fb.toNative s.colorBg) := by
      rw [scrollUpN_eq hin.pixels hmul hless] at h
      cases h
      exact ⟨rfl, fun x hx y hy => pixel_scrollUp hin.pixels hx hy hlines⟩
    obtain ⟨hbg, hpixel⟩ := hpixel
    have hrows : fb.height < fontH * fb.rows + fontH ∧ fontH * fb.rows ≤ fb.height := by
      unfold Framebuffer.rows fontH
      omega
    constructor
    · intro hspaces
      by_cases hn : n = 0
      · exact Or.inl hn
      refine Or.inr (Or.inr fun x hx y hy hlt => ?_)
      -- the pixel comes into the first row that is exposed
      have hcol : x / fontW < fb.cols := Nat.div_lt_of_lt_mul hx
      -- `n` is not 0 and less than all rows, since the lines are less than the height
      have hrow : fb.rows - n < fb.rows ∧ n ≤ fb.rows := by
        unfold fontH at hlines hrows
        omega
      have hblank := (blank_iff hfb hcol hrow.1 hlen).1
        (hspaces.blank _ hcol _ hrow.1 (show fb.rows ≤ fb.rows - n + n by omega)) (x % fontW)
        (Nat.mod_lt _ (by decide)) (y - fontH * fb.rows) (by omega)
      have hplace : (fb.rows - n) * fontH + (y - fontH * fb.rows) + fontH * n = y := by
        unfold fontH at *
        omega
      have hx' : x / fontW * fontW + x % fontW = x := Nat.div_add_mod' x fontW
      have hstride : x < fb.stride := by
        have hwidth : fontW * fb.cols ≤ fb.width := Nat.mul_div_le _ _
        have hle := hfb.stride
        omega
      rw [hx', hpixel x hstride _ (by omega), hplace, if_pos hlt, hbg] at hblank
      exact hblank
    · intro hclean
      refine ⟨fun col hcol row hrow hsel => ?_, fun he => he.elim⟩
      rw [blank_iff hfb hcol hrow hlen, hbg]
      intro gx hgx gy hgy
      obtain ⟨hx, -, hy, -⟩ := cell_pixel hfb hcol hrow hgx hgy
      rw [hpixel _ hx _ hy]
      have hsel' : fb.rows ≤ row + n := hsel
      split
      · rename_i hcomes
        rcases hclean with hzero | hle | hclean
        · omega
        · omega
        · refine hclean _ ?_ _ ?_ hcomes
          · unfold fontW at *
            omega
          · unfold fontH at *
            omega
      · rfl
  · have hlines := mt (lines_lt_iff hfb).2 hless
    rw [(scroll_clears hmul (Nat.le_of_not_lt hless)).1] at h
    exact iff_of_true (asSpaces_of_clearScreen hfb hin.pixels h fun he => he.elim)
      (Or.inr (Or.inl (Nat.le_of_not_lt hlines)))

private theorem asSpaces_down (hfb : fb.Usable) (hin : fb.Inside s) {n : Nat} (h : fb.scrollDownN n s = some s') :
    (Erasure.down n).AsSpaces fb s s' := by
  have hmul : fb.stride * fontH * 4 * n < 2 ^ 64 := lt_of_mul?_bind h
  by_cases hless : fb.stride * fontH * n < fb.total
  · rw [scrollDownN_eq hin.pixels hmul hless] at h
    cases h
    refine ⟨fun col hcol row hrow hsel => ?_, fun he => he.elim⟩
    rw [blank_iff hfb hcol hrow (by simp [hin.pixels]; omega)]
    intro gx hgx gy hgy
    obtain ⟨hx, -⟩ := cell_pixel hfb hcol hrow hgx hgy
    have hsel' : row < n := hsel
    have hplace : (row * fontH + gy) * fb.stride + (col * fontW + gx) < fb.stride * fontH * n := by
      have hlast : row * fontH + gy + 1 ≤ fontH * n := by
        unfold fontH at *
        omega
      have hmul' := Nat.mul_le_mul_right fb.stride hlast
      rw [Nat.add_mul _ 1] at hmul'
      rw [Nat.mul_assoc, Nat.mul_comm fb.stride]
      omega
    unfold pixel
    rw [List.getElem?_append_left (by simpa using hplace), List.getElem?_replicate_of_lt hplace]
  · rw [(scroll_clears hmul (Nat.le_of_not_lt hless)).2] at h
    exact asSpaces_of_clearScreen hfb hin.pixels h fun he => he.elim

end Framebuffer

namespace Erasure

variable {fb : Framebuffer} {s s' : Screen}

/-- What is erased is as spaces leave it exactly if the colour and the lines under the last row allow it. -/
theorem erases_iff (hfb : fb.Usable) (hin : fb.Inside s) {e : Erasure} (h : e.run fb s = some s') :
    e.AsSpaces fb s s' ↔ e.Clean fb s := by
  cases e with
  | line mode => exact Framebuffer.asSpaces_line_iff hfb hin h
  | display mode => exact Framebuffer.asSpaces_display_iff hfb hin h
  | clear => exact iff_of_true (Framebuffer.asSpaces_of_clearScreen hfb hin.pixels h fun he => he.elim) trivial
  | up n => exact Framebuffer.asSpaces_up_iff hfb hin h
  | down n => exact iff_of_true (Framebuffer.asSpaces_down hfb hin h) trivial

theorem erases_iff_narrow : ∃ s', (line 0).run Terminal.narrow (Terminal.fresh Terminal.narrow).screen = some s' ∧
    ((line 0).AsSpaces Terminal.narrow (Terminal.fresh Terminal.narrow).screen s' ↔
      (line 0).Clean Terminal.narrow (Terminal.fresh Terminal.narrow).screen) := by
  obtain ⟨s', h⟩ := Framebuffer.eraseLine_isSome Terminal.narrow_usable (Terminal.inside_fresh Terminal.narrow) 0
  exact ⟨s', h, erases_iff Terminal.narrow_usable (Terminal.inside_fresh Terminal.narrow) h⟩

/-- One cell, with blue as the highest byte of a pixel. -/
def blueFirst : Framebuffer :=
  { Terminal.narrow with height := 16, format := 1, height_lt := by decide, mapped := by decide }

/-- One cell, and eight lines under it. -/
def withMargin : Framebuffer := { Terminal.narrow with height := 24, height_lt := by decide, mapped := by decide }

/-- The screen after `ESC [ 4 1 m`. -/
def redBackground (fb : Framebuffer) : Screen := { (Terminal.fresh fb).screen with colorBg := palette 1 }

/-- A line that is erased in red gets blue, and a line that scrolling exposes begins in black. -/
theorem erases_otherwise :
    (blueFirst.Usable ∧ blueFirst.Inside (redBackground blueFirst) ∧
      ∃ s', (line 2).run blueFirst (redBackground blueFirst) = some s' ∧
        ¬ (line 2).AsSpaces blueFirst (redBackground blueFirst) s') ∧
    (withMargin.Usable ∧ withMargin.Inside (redBackground withMargin) ∧
      ∃ s', (up 1).run withMargin (redBackground withMargin) = some s' ∧
        ¬ (up 1).AsSpaces withMargin (redBackground withMargin) s') := by
  have hblue : blueFirst.Usable := ⟨by decide, by decide, by decide⟩
  have hmargin : withMargin.Usable := ⟨by decide, by decide, by decide⟩
  have hinside : ∀ fb : Framebuffer, fb.Inside (redBackground fb) := by
    intro fb
    have h := Terminal.inside_fresh fb
    exact ⟨h.col, h.row, h.savedCol, h.savedRow, h.pixels⟩
  refine ⟨⟨hblue, hinside _, ?_⟩, ⟨hmargin, hinside _, ?_⟩⟩
  · obtain ⟨s', h⟩ := Framebuffer.eraseLine_isSome hblue (hinside blueFirst) 2
    refine ⟨s', h, fun hspaces => ?_⟩
    have hclean := (Framebuffer.asSpaces_line_iff hblue (hinside _) h).1 hspaces
    revert hclean
    decide
  · obtain ⟨s', h⟩ := (Framebuffer.scrollUpN_isSome_iff (hinside withMargin).pixels 1).2 (by decide)
    refine ⟨s', h, fun hspaces => ?_⟩
    rcases (Framebuffer.asSpaces_up_iff hmargin (hinside _) h).1 hspaces with hzero | hle | hmargin
    · cases hzero
    · revert hle
      decide
    · have hpixel := hmargin 0 (by decide) 16 (by decide) (by decide)
      revert hpixel
      decide +kernel

end Erasure

end Rost.Gop
