import Rost.Memory.Pages
import Rost.Lib.Words

/-!
# The bytes of a frame

A frame holds 4096 bytes, eight in each of its words.  A byte that is written is read back, the others stay
(`readByte_writeByte`).  Mapping a page changes no byte of the frames that have been handed out for data, and all the
addresses of the page lead into its frame (`Tables.mapPageGlobal_page`).
-/

namespace Rost

open Lib (byteOf byteOf_setByte)
open Lib.TableTree (resolve Layout)

theorem IsTableAddr.toNat_add {p : Word} (h : IsTableAddr p) {x : Nat} (hx : x < 4096) :
    (p + BitVec.ofNat 64 x).toNat = p.toNat + x := by
  have hlt := h.toNat_lt
  rw [BitVec.toNat_add, BitVec.toNat_ofNat]
  omega

namespace Memory

/-! ### Bytes -/

section Bytes

variable {p : Word}

theorem wordOf_add (h : IsTableAddr p) {x : Nat} (hx : x < 4096) : (wordOf (p + BitVec.ofNat 64 x)).val = x / 8 := by
  have hmod := h.toNat_mod
  unfold wordOf
  rw [toNat_low9, h.toNat_add hx]
  omega

theorem bitOf_add (h : IsTableAddr p) {x : Nat} (hx : x < 4096) : bitOf (p + BitVec.ofNat 64 x) = 8 * (x % 8) := by
  have hmod := h.toNat_mod
  unfold bitOf
  rw [BitVec.toNat_and, h.toNat_add hx, show (7#64).toNat = 2 ^ 3 - 1 from rfl, Nat.and_two_pow_sub_one_eq_mod]
  omega

theorem readByte_add (m : Memory) (h : IsTableAddr p) {x : Nat} (hx : x < 4096) :
    m.readByte (p + BitVec.ofNat 64 x) = byteOf (m.ram p (wordOf (p + BitVec.ofNat 64 x))) (x % 8) := by
  unfold readByte readWord byteOf
  rw [h.frameOf_add hx, bitOf_add h hx]

/-- What a frame holds depends on its own words only. -/
theorem readByte_congr {m m' : Memory} (h : IsTableAddr p) (hsame : ∀ j, m'.ram p j = m.ram p j) {x : Nat}
    (hx : x < 4096) : m'.readByte (p + BitVec.ofNat 64 x) = m.readByte (p + BitVec.ofNat 64 x) := by
  rw [readByte_add m' h hx, readByte_add m h hx, hsame]

theorem readByte_zero {m : Memory} (h : IsTableAddr p) (hzero : ∀ j, m.ram p j = 0) {x : Nat} (hx : x < 4096) :
    m.readByte (p + BitVec.ofNat 64 x) = 0 := by
  rw [readByte_add m h hx, hzero]
  unfold byteOf
  simp

/-- The byte that is written is read back, the others of the frame stay. -/
theorem readByte_writeByte (m : Memory) (h : IsTableAddr p) {x y : Nat} (hx : x < 4096) (hy : y < 4096) (b : Byte) :
    (m.writeByte (p + BitVec.ofNat 64 y) b).readByte (p + BitVec.ofNat 64 x) =
      if x = y then b else m.readByte (p + BitVec.ofNat 64 x) := by
  rw [readByte_add _ h hx, readByte_add m h hx]
  unfold writeByte readWord
  rw [writeEntry_ram, h.frameOf_add hy, bitOf_add h hy]
  have hword : wordOf (p + BitVec.ofNat 64 x) = wordOf (p + BitVec.ofNat 64 y) ↔ x / 8 = y / 8 := by
    rw [Fin.ext_iff, wordOf_add h hx, wordOf_add h hy]
  by_cases hsame : x / 8 = y / 8
  · rw [if_pos ⟨rfl, hword.2 hsame⟩, ← hword.2 hsame, byteOf_setByte _ _ (Nat.mod_lt _ (by decide))
      (Nat.mod_lt _ (by decide))]
    by_cases hxy : x = y
    · rw [if_pos (by rw [hxy]), if_pos hxy]
    · rw [if_neg (by omega), if_neg hxy]
  · rw [if_neg fun hhere => hsame (hword.1 hhere.2), if_neg (by rintro rfl; exact hsame rfl)]

/-- The byte of an address on a page in the frame `p`. -/
theorem or_low12 (h : IsTableAddr p) (v : Word) : p ||| v &&& 0xFFF#64 = p + BitVec.ofNat 64 (v.toNat % 4096) := by
  have hmod := h.toNat_mod
  have hlow : (v &&& 0xFFF#64).toNat = v.toNat % 2 ^ 12 := by
    rw [BitVec.toNat_and]
    exact Nat.and_two_pow_sub_one_eq_mod v.toNat 12
  apply BitVec.eq_of_toNat_eq
  rw [h.toNat_add (Nat.mod_lt _ (by decide)), BitVec.toNat_or, hlow]
  have hshift : p.toNat = (p.toNat / 4096) <<< 12 := by
    rw [Nat.shiftLeft_eq]
    omega
  rw [hshift, ← Nat.shiftLeft_add_eq_or_of_lt (Nat.mod_lt _ (by decide))]

end Bytes

/-! ### Mapping a page of data -/

section MapPage

variable {W : List (Fin 512) → Word → Prop} {m m' : Memory} {kern o : Word} {tag : Tags}

/-- `alloc_fn` writes into the table and into a frame that the allocators hand out. -/
theorem allocFn_ram_of_fresh (T : Tables m kern tag) {flag table f : Word} {i : Fin 512} {r : Option Word}
    {t : Word × List (Fin 512)} (htable : tag table = some t) (hf : m.Fresh tag f)
    (h : m.allocFn flag table i = (m', r)) (j : Fin 512) : m'.ram f j = m.ram f j := by
  have hne : f ≠ table := by
    rintro rfl
    rw [hf.untagged] at htable
    cases htable
  rcases m.allocFn_cases flag table i with hfail | ⟨-, m₁, c, halloc, heq⟩ | ⟨-, -, m₁, c, halloc, heq⟩ |
    ⟨-, -, e, -, heq⟩
  · rw [hfail] at h
    cases h
    rfl
  · rw [heq] at h
    cases h
    have hfc : f ≠ c := fun hc => not_fresh_of_allocPtFrame halloc (hc ▸ hf)
    rw [writeEntry_ram, if_neg fun hhere => hne hhere.1, zeroFrame_ram, if_neg hfc, (T.allocPtFrame halloc).2.2]
  · rw [heq] at h
    cases h
    have hfc : f ≠ c := fun hc => not_fresh_of_allocPtFrame halloc (hc ▸ hf)
    rw [writeEntry_ram, if_neg fun hhere => hne hhere.1, ← (T.allocPtFrame halloc).2.2]
    exact if_neg hfc
  · rw [heq] at h
    cases h
    rw [writeEntry_ram, if_neg fun hhere => hne hhere.1]

/-- The page is mapped, and the frames in use for data are as they were. -/
theorem Tables.mapPageGlobal_page (T : Tables m kern tag) (hroot : tag o = some (o, [])) {virt phys flags : Word}
    (hpath : OwnedPath m tag o virt) (hpresent : pageEntry phys flags &&& ptePresent ≠ 0)
    (h : m.mapPageGlobal o virt phys flags = (m', true)) :
    (∀ v, pageNumber v = pageNumber virt →
      m'.translateAddress o v = some (pageEntry phys flags &&& pteAddrMask ||| v &&& 0xFFF#64)) ∧
      ∀ f, m.Fresh tag f → ∀ j, m'.ram f j = m.ram f j := by
  unfold Memory.mapPageGlobal at h
  simp only at h
  split at h
  · cases h
  · rename_i m₁ pdpt h₁
    obtain ⟨tag₁, hb₁, hpdpt⟩ := T.allocFn (W := PageAt virt phys flags) hroot (by decide) hpath.pml4 h₁
    have hpath₁ := hpath.builds hb₁ fun _ _ => PageAt.length
    split at h
    · cases h
    · rename_i m₂ pd h₂
      obtain ⟨tag₂, hb₂, hpd⟩ :=
        hb₁.tables.allocFn (W := PageAt virt phys flags) (hpdpt pdpt rfl) (by simp) hpath₁.pdpt h₂
      have hpath₂ := hpath₁.builds hb₂ fun _ _ => PageAt.length
      split at h
      · cases h
      · rename_i m₃ pt h₃
        cases h
        obtain ⟨tag₃, hb₃, hpt⟩ :=
          hb₂.tables.allocFn (W := PageAt virt phys flags) (hpd pd rfl) (by simp) hpath₂.pd h₃
        have hpt : tag₃ pt = some (o, [pml4Index virt, pdptIndex virt, pdIndex virt]) := hpt pt rfl
        have hw : Builds (fun _ _ => True) kern o m₃ tag₃
            (m₃.writeEntry pt (ptIndex virt) (pageEntry phys flags)) tag₃ :=
          hb₃.tables.writePage hpt (by simp) trivial
        refine ⟨fun v hv => ?_, fun f hf j => ?_⟩
        · have hpathv : pathOf v = [pml4Index virt, pdptIndex virt, pdIndex virt] ++ [ptIndex virt] :=
            pathOf_eq_iff.2 hv
          have hentry : (m₃.writeEntry pt (ptIndex virt) (pageEntry phys flags)).links 0 pt (ptIndex virt) =
              .leaf (pageEntry phys flags) := by
            unfold links
            rw [writeEntry_ram, if_pos ⟨rfl, rfl⟩]
            exact decode_page hpresent
          show (m₃.writeEntry pt (ptIndex virt) (pageEntry phys flags)).translateAddress o v = _
          rw [translateAddress_eq, hpathv, Lib.TableTree.resolve_of_descend (by simp)
            (hw.tables.layout.descend_of_tag hpt)]
          unfold resolve
          rw [List.length_nil, hentry]
          rfl
        · have hf₁ := hb₁.fresh hf
          have hf₂ := hb₂.fresh hf₁
          have hf₃ := hb₃.fresh hf₂
          have hne : f ≠ pt := by
            rintro rfl
            rw [hf₃.untagged] at hpt
            cases hpt
          rw [writeEntry_ram, if_neg fun hhere => hne hhere.1,
            allocFn_ram_of_fresh hb₂.tables (hpd pd rfl) hf₂ h₃ j,
            allocFn_ram_of_fresh hb₁.tables (hpdpt pdpt rfl) hf₁ h₂ j, allocFn_ram_of_fresh T hroot hf h₁ j]

end MapPage

end Memory

end Rost
