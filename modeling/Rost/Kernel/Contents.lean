import Rost.Kernel.ExecBuffer
import Rost.Memory.Bytes

/-!
# What the loader puts into memory

Every page of a segment gets a zeroed frame of its own, into which the bytes of the file that lie on the page are
copied; the frame takes the place of whatever was mapped there before.  So the byte at an address is the one that the
last segment with a page there has put there (`HasBytes`, `hasBytes_load`), be it a byte of the file or a zero around
it.  The image is what the file describes exactly if this is also the byte of the last segment that has the address
itself (`imageBuilt_iff`).
-/

namespace Rost

open Lib.TableTree (Layout)
open Lib.TableTree.Layout (setTag)
open Memory (Tables Builds Consumes OwnedPath PageAt)

namespace Elf64Phdr

/-- The start of the first page. -/
def pageBase (ph : Elf64Phdr) : Word := BitVec.ofNat 64 ph.vaddr &&& ~~~0xFFF#64

/-- Where the segment begins on its first page. -/
def pageAlign (ph : Elf64Phdr) : Nat := (BitVec.ofNat 64 ph.vaddr &&& 0xFFF#64).toNat

/-- The pages that the loader maps for the segment. -/
def totalPages (ph : Elf64Phdr) : Nat :=
  if ph.type ≠ ptLoad ∨ ph.memsz = 0 then 0 else wrapAdd 64 (wrapAdd 64 ph.pageAlign ph.memsz) 4095 / 4096

/-- How far an address lies behind the start of the first page, in the bits that the page tables tell apart. -/
def place (ph : Elf64Phdr) (v : Word) : Nat := (v - ph.pageBase).toNat % 2 ^ 48

/-- The address lies on a page of the segment. -/
def OnPages (ph : Elf64Phdr) (v : Word) : Prop := ph.place v / 4096 < ph.totalPages

/-- The address lies in the segment. -/
def Covers (ph : Elf64Phdr) (v : Word) : Prop := ph.type = ptLoad ∧ (v - BitVec.ofNat 64 ph.vaddr).toNat < ph.memsz

instance (ph : Elf64Phdr) (v : Word) : Decidable (ph.OnPages v) := inferInstanceAs (Decidable (_ < _))

instance (ph : Elf64Phdr) (v : Word) : Decidable (ph.Covers v) := inferInstanceAs (Decidable (_ ∧ _))

/-- The byte with number `i` of the segment, as the file describes it. -/
def imageByte (bytes : List Byte) (ph : Elf64Phdr) (i : Nat) : Option Byte :=
  if i < ph.filesz then bytes[ph.offset + i]? else some 0

/-- The byte that stands at place `x` of the pages of the segment: one of the file, or a zero. -/
def pageByte (bytes : List Byte) (ph : Elf64Phdr) (x : Nat) : Option Byte :=
  if x < ph.pageAlign then some 0 else ph.imageByte bytes (x - ph.pageAlign)

end Elf64Phdr

namespace Elf

/-! ### Copying a page -/

section Copy

variable {m m' : Memory} {p : Word} {bytes : List Byte} {hlen : bytes.length < 2 ^ 63}

theorem readByte_writeBytes (hp : IsTableAddr p) (m : Memory) (bs : List Byte) {y : Nat} (hy : y + bs.length ≤ 4096)
    {x : Nat} (hx : x < 4096) :
    (writeBytes m (p + BitVec.ofNat 64 y) bs).readByte (p + BitVec.ofNat 64 x) =
      if y ≤ x ∧ x < y + bs.length then bs.getD (x - y) 0 else m.readByte (p + BitVec.ofNat 64 x) := by
  induction bs generalizing m y with
  | nil =>
    rw [List.length_nil, if_neg (by omega)]
    rfl
  | cons b bs ih =>
    rw [List.length_cons] at hy ⊢
    have hnext : p + BitVec.ofNat 64 y + 1 = p + BitVec.ofNat 64 (y + 1) := by
      rw [BitVec.add_assoc, BitVec.ofNat_add]
      rfl
    unfold writeBytes
    rw [hnext, ih _ (by omega), Memory.readByte_writeByte m hp hx (by omega)]
    by_cases hhere : x = y
    · subst hhere
      rw [if_neg (by omega), if_pos rfl, if_pos (by omega), Nat.sub_self]
      rfl
    · rw [if_neg hhere]
      by_cases hin : y ≤ x ∧ x < y + (bs.length + 1)
      · rw [if_pos hin, if_pos (by omega), show x - y = x - (y + 1) + 1 by omega]
        rfl
      · rw [if_neg hin, if_neg (by omega)]

/-- A zeroed frame holds the bytes of the page with number `pageIdx` after the copy. -/
theorem readByte_copyPage {ph : Elf64Phdr} {pageIdx : Nat} (hp : IsTableAddr p) (hzero : ∀ j, m.ram p j = 0)
    (h : copyPage (.ofBytes bytes hlen) ph.offset ph.filesz ph.pageAlign pageIdx p m = some m') {x : Nat}
    (hx : x < 4096) : some (m'.readByte (p + BitVec.ofNat 64 x)) = ph.pageByte bytes (pageIdx * 4096 + x) := by
  have halign : ph.pageAlign < 4096 := by
    unfold Elf64Phdr.pageAlign
    rw [BitVec.toNat_and]
    exact Nat.lt_of_le_of_lt Nat.and_le_right (by decide)
  unfold copyPage at h
  simp only at h
  unfold Elf64Phdr.pageByte Elf64Phdr.imageByte
  -- where the page begins in the segment, and the segment on the page
  have hstart : ∀ d, (if pageIdx = 0 then 0 else pageIdx * 4096 - ph.pageAlign) + d =
      pageIdx * 4096 + (if pageIdx = 0 then ph.pageAlign else 0) + d - ph.pageAlign := by
    intro d
    split <;> omega
  have hoff : (if pageIdx = 0 then ph.pageAlign else 0) < 4096 := by
    split <;> omega
  have hleft : pageIdx * 4096 + x < ph.pageAlign ↔ x < (if pageIdx = 0 then ph.pageAlign else 0) := by
    split <;> omega
  generalize (if pageIdx = 0 then 0 else pageIdx * 4096 - ph.pageAlign) = segStart at h hstart
  generalize (if pageIdx = 0 then ph.pageAlign else 0) = physOffset at h hstart hoff hleft
  split at h
  · rename_i hlt
    obtain ⟨bs, hread, rfl⟩ := Option.map_eq_some_iff.1 h
    have hbs := length_readBytes hread
    rw [readByte_writeBytes hp m bs (by omega) hx, Memory.readByte_zero hp hzero hx]
    by_cases hbefore : x < physOffset
    · rw [if_pos (hleft.2 hbefore), if_neg (by omega)]
    · rw [if_neg fun hc => hbefore (hleft.1 hc)]
      have hd := hstart (x - physOffset)
      rw [show pageIdx * 4096 + physOffset + (x - physOffset) = pageIdx * 4096 + x by omega] at hd
      rw [← hd]
      by_cases hin : segStart + (x - physOffset) < ph.filesz
      · have hlt : x - physOffset < bs.length := by omega
        have hget : bs[x - physOffset]? = bytes[ph.offset + segStart + (x - physOffset)]? := by
          rw [eq_of_readBytes hread, List.getElem?_take_of_lt (by omega), List.getElem?_drop]
        rw [if_pos hin, if_pos (by omega), ← Nat.add_assoc, ← hget, List.getD_eq_getElem?_getD,
          List.getElem?_eq_getElem hlt]
        rfl
      · rw [if_neg hin, if_neg (by omega)]
  · rename_i hge
    cases h
    rw [Memory.readByte_zero hp hzero hx]
    by_cases hbefore : x < physOffset
    · rw [if_pos (hleft.2 hbefore)]
    · have hd := hstart (x - physOffset)
      rw [show pageIdx * 4096 + physOffset + (x - physOffset) = pageIdx * 4096 + x by omega] at hd
      rw [if_neg fun hc => hbefore (hleft.1 hc), if_neg (by omega)]

end Copy

/-! ### Loading pages -/

/-- The address space `o` has the bytes `content`, all of them in frames that are in use for data. -/
structure HasBytes (kern o : Word) (m : Memory) (tag : Tags) (content : Word → Option Byte) : Prop where
  tables : Tables m kern tag
  root : tag o = some (o, [])
  unshared : Unshared m tag o
  backed : ∀ v p, m.translateAddress o v = some p → ∃ f, m.Fresh tag f ∧ p = f + BitVec.ofNat 64 (v.toNat % 4096)
  bytes : ∀ v, m.loadByte o v = content v

theorem HasBytes.congr {kern o : Word} {m : Memory} {tag : Tags} {content content' : Word → Option Byte}
    (h : HasBytes kern o m tag content) (hsame : ∀ v, content' v = content v) : HasBytes kern o m tag content' :=
  ⟨h.tables, h.root, h.unshared, h.backed, fun v => (h.bytes v).trans (hsame v).symm⟩

section HasBytes

variable {m m₁ m₂ m₃ m' : Memory} {kern o phys virt flags : Word} {tag : Tags} {content : Word → Option Byte}
  {bytes : List Byte} {hlen : bytes.length < 2 ^ 63} {frames frames' : List Word}

/-- One more page, in a frame that has been filled with `g`. -/
theorem HasBytes.page (h : HasBytes kern o m tag content) (halloc : m.globalAlloc4k = (m₁, some phys))
    (hcons : Consumes m₁ m₂) (hram : ∀ f, f ≠ phys → ∀ j, m₂.ram f j = m₁.ram f j) {g : Nat → Option Byte}
    (hfill : ∀ x < 4096, some (m₂.readByte (phys + BitVec.ofNat 64 x)) = g x) (haddr : flags &&& pteAddrMask = 0)
    (hpresent : flags &&& ptePresent ≠ 0) (hmap : m₂.mapPageGlobal o virt phys flags = (m₃, true)) :
    ∃ tag', HasBytes kern o m₃ tag' fun v =>
      if pageNumber v = pageNumber virt then g (v.toNat % 4096) else content v := by
  have hcons₁ := Consumes.globalAlloc4k m
  rw [halloc] at hcons₁
  obtain ⟨T₁, hfresh, hram₁⟩ := h.tables.globalAlloc4k halloc
  have hne : ∀ {f}, m.Fresh tag f → f ≠ phys := by
    rintro f hf rfl
    exact Memory.not_reserved_of_globalAlloc4k halloc hf.reserved
  have hdata : Builds (PageAt virt phys flags) kern o m tag m₂ tag := by
    refine .of_data h.tables (hcons₁.trans hcons) fun f t hf j => ?_
    rw [hram f ?_ j, hram₁]
    rintro rfl
    rw [hfresh.untagged] at hf
    cases hf
  have hun := h.unshared
  have hpath : OwnedPath m tag o virt := ⟨hun _ _ (by decide), hun _ _ (by simp), hun _ _ (by simp)⟩
  have hpath₂ := hpath.builds hdata fun _ _ => PageAt.length
  obtain ⟨tag', hb⟩ := hdata.tables.mapPageGlobal h.root hpath₂ hmap
  have hall := hdata.trans hb
  have hphys : m₂.Fresh tag phys := hfresh.consumes hcons
  obtain ⟨hpage, hkeep⟩ := hdata.tables.mapPageGlobal_page h.root hpath₂
    (by rw [Memory.pageEntry_present]; exact hpresent) hmap
  have hself : ∀ v, pageNumber v = pageNumber virt →
      m₃.translateAddress o v = some (phys + BitVec.ofNat 64 (v.toNat % 4096)) := by
    intro v hv
    rw [hpage v hv, Memory.pageEntry_addr hfresh.reserved.addr haddr, Memory.or_low12 hfresh.reserved.addr]
  have hother : ∀ v, pageNumber v ≠ pageNumber virt → m₃.translateAddress o v = m.translateAddress o v := by
    intro v hv
    rw [Memory.translateAddress_eq, Memory.translateAddress_eq, hall.resolves h.root rfl fun q e hq hw => ?_]
    rw [show q = pathOf virt from hw.1, List.nil_append] at hq
    exact hv (pathOf_eq_iff.1 (hq.eq_of_length rfl).symm)
  refine ⟨tag', hb.tables, hb.grows.keeps h.root, fun p j hp => ?_, fun v p hp => ?_, fun v => ?_⟩
  · refine hall.owned (fun e he => ?_) (hun p j hp)
    have hlen := PageAt.length he
    rw [List.length_append, List.length_singleton] at hlen
    omega
  · by_cases hv : pageNumber v = pageNumber virt
    · rw [hself v hv] at hp
      exact ⟨phys, hb.fresh hphys, (Option.some.inj hp).symm⟩
    · rw [hother v hv] at hp
      obtain ⟨f, hf, rfl⟩ := h.backed v p hp
      exact ⟨f, hall.fresh hf, rfl⟩
  · have hx : v.toNat % 4096 < 4096 := Nat.mod_lt _ (by decide)
    unfold Memory.loadByte
    by_cases hv : pageNumber v = pageNumber virt
    · rw [if_pos hv, hself v hv, ← hfill _ hx, Option.map_some,
        Memory.readByte_congr hfresh.reserved.addr (hkeep phys hphys) hx]
    · rw [if_neg hv, hother v hv, ← h.bytes v]
      unfold Memory.loadByte
      cases htrans : m.translateAddress o v with
      | none => rfl
      | some p =>
        -- the frame of this page has not been written
        obtain ⟨f, hf, rfl⟩ := h.backed v p htrans
        rw [Option.map_some, Option.map_some, Memory.readByte_congr hf.reserved.addr (fun j => ?_) hx]
        rw [hkeep f (hdata.fresh hf) j, hram f (hne hf) j, hram₁]

/-- The bytes after the pages of a segment have been put over `content`. -/
def laidOver (bytes : List Byte) (content : Word → Option Byte) (ph : Elf64Phdr) : Word → Option Byte := fun v =>
  if ph.OnPages v then ph.pageByte bytes (ph.place v) else content v

theorem pageBase_aligned (ph : Elf64Phdr) : ph.pageBase.toNat % 4096 = 0 := by
  have hlow : ph.pageBase &&& 0xFFF#64 = 0 := by
    unfold Elf64Phdr.pageBase
    rw [BitVec.and_assoc, show ~~~0xFFF#64 &&& 0xFFF#64 = 0 from by decide]
    exact BitVec.and_zero
  have hmod : (ph.pageBase &&& 0xFFF#64).toNat = ph.pageBase.toNat % 2 ^ 12 := by
    rw [BitVec.toNat_and]
    exact Nat.and_two_pow_sub_one_eq_mod _ 12
  rw [hlow] at hmod
  exact hmod.symm

/-- The address lies on the page with number `i` of the segment. -/
theorem pageNumber_eq_iff (ph : Elf64Phdr) {i : Nat} (hi : i < 2 ^ 36) (v : Word) :
    pageNumber v = pageNumber (ph.pageBase + BitVec.ofNat 64 (i * 4096)) ↔ ph.place v / 4096 = i := by
  have haligned := pageBase_aligned ph
  unfold Elf64Phdr.place
  rw [← BitVec.toNat_inj, toNat_pageNumber, toNat_pageNumber, BitVec.toNat_add, BitVec.toNat_ofNat, BitVec.toNat_sub]
  omega

theorem place_mod (ph : Elf64Phdr) (v : Word) : ph.place v % 4096 = v.toNat % 4096 := by
  have haligned := pageBase_aligned ph
  unfold Elf64Phdr.place
  rw [BitVec.toNat_sub]
  omega

theorem hasBytes_loadPages (ph : Elf64Phdr) {count pageIdx : Nat} (h : HasBytes kern o m tag content)
    (hsmall : pageIdx + count ≤ 2 ^ 36) (haddr : flags &&& pteAddrMask = 0) (hpresent : flags &&& ptePresent ≠ 0)
    (hl : loadPages (.ofBytes bytes hlen) o flags ph.pageBase ph.offset ph.filesz ph.pageAlign count pageIdx m frames =
      some (m', some frames')) :
    ∃ tag', HasBytes kern o m' tag' fun v =>
      if pageIdx ≤ ph.place v / 4096 ∧ ph.place v / 4096 < pageIdx + count then ph.pageByte bytes (ph.place v)
      else content v := by
  induction count generalizing pageIdx m frames tag content with
  | zero =>
    cases hl
    refine ⟨tag, h.congr fun v => ?_⟩
    rw [if_neg (by omega)]
  | succ count ih =>
    obtain ⟨m₁, phys, m₂, m₃, halloc, hcopy, hmap, hl⟩ := loadPages_succ hl
    have hphys := (h.tables.globalAlloc4k halloc).2.1.reserved.addr
    have hcons : Consumes m₁ m₂ :=
      ((Consumes.frameTag m₁ phys .userOwned).trans (.zeroFrame _ phys)).trans (consumes_copyPage hcopy)
    have hram : ∀ f, f ≠ phys → ∀ j, m₂.ram f j = m₁.ram f j := by
      intro f hf j
      rw [copyPage_ram_of_ne hphys hcopy hf j, Memory.zeroFrame_ram, if_neg hf, Memory.frameTag_ram]
    have hzero : ∀ j, ((m₁.frameTag phys .userOwned).zeroFrame phys).ram phys j = 0 := by
      intro j
      rw [Memory.zeroFrame_ram, if_pos rfl]
    have hfill : ∀ x < 4096,
        some (m₂.readByte (phys + BitVec.ofNat 64 x)) = ph.pageByte bytes (pageIdx * 4096 + x) :=
      fun x hx => readByte_copyPage hphys hzero hcopy hx
    obtain ⟨tag₃, h₃⟩ := h.page halloc hcons hram hfill haddr hpresent hmap
    obtain ⟨tag', h'⟩ := ih h₃ (by omega) hl
    refine ⟨tag', h'.congr fun v => ?_⟩
    have hmod := place_mod ph v
    by_cases hpage : ph.place v / 4096 = pageIdx
    · rw [if_pos (by omega), if_neg (by omega), if_pos ((pageNumber_eq_iff ph (by omega) v).2 hpage)]
      exact congrArg (ph.pageByte bytes) (by omega)
    · have hother : pageNumber v ≠ pageNumber (ph.pageBase + BitVec.ofNat 64 (pageIdx * 4096)) :=
        fun hv => hpage ((pageNumber_eq_iff ph (by omega) v).1 hv)
      by_cases hin : pageIdx + 1 ≤ ph.place v / 4096 ∧ ph.place v / 4096 < pageIdx + 1 + count
      · rw [if_pos (by omega), if_pos hin]
      · rw [if_neg (by omega), if_neg hin, if_neg hother]

/-- The segment has been put over what was there, and its part of the file lies in the image. -/
theorem hasBytes_loadSegment (ph : Elf64Phdr) (h : HasBytes kern o m tag content) (hsmall : ph.totalPages ≤ 2 ^ 36)
    (hl : loadSegment (.ofBytes bytes hlen) o ph m frames = some (m', some frames')) :
    (ph.type = ptLoad → ph.offset + ph.filesz ≤ bytes.length) ∧
      ∃ tag', HasBytes kern o m' tag' (laidOver bytes content ph) := by
  have hskip : ph.type ≠ ptLoad ∨ ph.memsz = 0 → laidOver bytes content ph = content := by
    intro hno
    funext v
    refine if_neg ?_
    unfold Elf64Phdr.OnPages Elf64Phdr.totalPages
    rw [if_pos hno]
    exact Nat.not_lt_zero _
  unfold loadSegment at hl
  split at hl
  · rename_i htype
    cases hl
    exact ⟨fun hload => absurd hload htype, tag, by rw [hskip (Or.inl htype)]; exact h⟩
  · rename_i htype
    split at hl
    · cases hl
    · rename_i hfits
      refine ⟨fun _ => Nat.le_of_not_lt fun hlt => hfits (Or.inr hlt), ?_⟩
      split at hl
      · rename_i hempty
        cases hl
        exact ⟨tag, by rw [hskip (Or.inr hempty)]; exact h⟩
      · rename_i hempty
        have htotal : ph.totalPages = wrapAdd 64 (wrapAdd 64 ph.pageAlign ph.memsz) 4095 / 4096 := by
          unfold Elf64Phdr.totalPages
          rw [if_neg (not_or.2 ⟨htype, hempty⟩)]
        simp only at hl
        obtain ⟨tag', h'⟩ := hasBytes_loadPages ph h
          (by rw [Nat.zero_add]; exact htotal ▸ hsmall) (segmentFlags_addr ph) (segmentFlags_present ph) hl
        refine ⟨tag', h'.congr fun v => ?_⟩
        have hon : ph.OnPages v ↔ 0 ≤ ph.place v / 4096 ∧ ph.place v / 4096 < 0 + ph.totalPages := by
          unfold Elf64Phdr.OnPages
          omega
        rw [htotal] at hon
        unfold laidOver
        by_cases hv : ph.OnPages v
        · exact (if_pos hv).trans (if_pos (hon.1 hv)).symm
        · exact (if_neg hv).trans (if_neg fun hc => hv (hon.2 hc)).symm

theorem hasBytes_loadSegments {phoff count i : Nat} (h : HasBytes kern o m tag content)
    (hsmall : ∀ j, i ≤ j → j < i + count → (programHeader bytes phoff j).totalPages ≤ 2 ^ 36)
    (hl : loadSegments (.ofBytes bytes hlen) o phoff count i m frames = some (m', some frames')) :
    (∀ j, i ≤ j → j < i + count → (programHeader bytes phoff j).type = ptLoad →
      (programHeader bytes phoff j).offset + (programHeader bytes phoff j).filesz ≤ bytes.length) ∧
      ∃ tag', HasBytes kern o m' tag'
        (((List.range' i count).map (programHeader bytes phoff)).foldl (laidOver bytes) content) := by
  induction count generalizing i m frames tag content with
  | zero =>
    cases hl
    exact ⟨fun j hj hlt => by omega, tag, h⟩
  | succ count ih =>
    obtain ⟨-, m₁, frames₁, hseg, hl⟩ := loadSegments_succ hl
    obtain ⟨hfits, tag₁, h₁⟩ := hasBytes_loadSegment (programHeader bytes phoff i) h
      (hsmall i (Nat.le_refl i) (by omega)) hseg
    obtain ⟨hrest, tag', h'⟩ := ih h₁ (fun j hj hlt => hsmall j (by omega) (by omega)) hl
    refine ⟨fun j hj hlt => ?_, tag', ?_⟩
    · by_cases hji : j = i
      · rw [hji]
        exact hfits
      · exact hrest j (by omega) (by omega)
    · rw [List.range'_succ]
      exact h'

/-- No page is mapped yet. -/
private theorem hasBytes_root (T : Tables m kern tag) (halloc : m.globalAlloc4k = (m₁, some o)) :
    HasBytes kern o (m₁.zeroFrame o) (setTag tag o (o, [])) fun _ => none := by
  obtain ⟨T₁, hun⟩ := newRoot T halloc
  have hnone : ∀ v, (m₁.zeroFrame o).translateAddress o v = none := by
    intro v
    have hzero : (m₁.zeroFrame o).links 3 o (pml4Index v) = .none := by
      unfold Memory.links
      rw [Memory.zeroFrame_ram, if_pos rfl]
      exact decode_zero 3
    rw [Memory.translateAddress_eq]
    unfold pathOf Lib.TableTree.resolve
    simp only [List.length_cons, List.length_nil, Nat.zero_add, Nat.reduceAdd, hzero]
    rfl
  refine ⟨T₁, Layout.setTag_self _ _ _, hun, fun v p hp => ?_, fun v => ?_⟩
  · rw [hnone v] at hp
    cases hp
  · unfold Memory.loadByte
    rw [hnone v]
    rfl

end HasBytes

/-! ### The image -/

/-- The number of program headers. -/
def headerCount (bytes : List Byte) : Nat := (Elf64Ehdr.ofBytes (bytes.take ehdrSize)).phnum

/-- The program header with number `k`. -/
def header (bytes : List Byte) (k : Nat) : Elf64Phdr :=
  programHeader bytes (Elf64Ehdr.ofBytes (bytes.take ehdrSize)).phoff k

/-- The address space has the bytes that the file describes: at an address that several segments have, the last of them
counts. -/
def ImageBuilt (m : Memory) (pml4 : Word) (bytes : List Byte) : Prop :=
  ∀ k < headerCount bytes, (header bytes k).type = ptLoad → ∀ i < (header bytes k).memsz,
    (∀ l < headerCount bytes, k < l → ¬ (header bytes l).Covers (BitVec.ofNat 64 ((header bytes k).vaddr + i))) →
    m.loadByte pml4 (BitVec.ofNat 64 ((header bytes k).vaddr + i)) = (header bytes k).imageByte bytes i

/-- The last segment with a page at the address `v` has the byte `b` there. -/
def LeftWith (bytes : List Byte) (v : Word) (b : Option Byte) : Prop :=
  ∃ l < headerCount bytes, (header bytes l).OnPages v ∧
    (∀ l' < headerCount bytes, l < l' → ¬ (header bytes l').OnPages v) ∧
    (header bytes l).pageByte bytes ((header bytes l).place v) = b

/-- No byte of the image is lost to a later segment that has a page there, but not the byte. -/
def Intact (bytes : List Byte) : Prop :=
  ∀ k < headerCount bytes, (header bytes k).type = ptLoad → ∀ i < (header bytes k).memsz,
    (∀ l < headerCount bytes, k < l → ¬ (header bytes l).Covers (BitVec.ofNat 64 ((header bytes k).vaddr + i))) →
    LeftWith bytes (BitVec.ofNat 64 ((header bytes k).vaddr + i)) ((header bytes k).imageByte bytes i)

instance (bytes : List Byte) (v : Word) (b : Option Byte) : Decidable (LeftWith bytes v b) :=
  inferInstanceAs (Decidable (∃ l < headerCount bytes, _ ∧ _ ∧ _))

section Load

variable {m m' : Memory} {kern : Word} {tag : Tags} {bytes : List Byte} {hlen : bytes.length < 2 ^ 63}
  {loaded : LoadedElf}

/-- Of several segments, the last one with a page at the address counts. -/
private theorem foldl_over (f : Nat → Elf64Phdr) (n : Nat) (content : Word → Option Byte) (v : Word) :
    (∃ l < n, (f l).OnPages v ∧ (∀ l' < n, l < l' → ¬ (f l').OnPages v) ∧
      ((List.range n).map f).foldl (laidOver bytes) content v = (f l).pageByte bytes ((f l).place v)) ∨
    ((∀ l < n, ¬ (f l).OnPages v) ∧ ((List.range n).map f).foldl (laidOver bytes) content v = content v) := by
  induction n with
  | zero => exact Or.inr ⟨fun l hl => by omega, rfl⟩
  | succ n ih =>
    rw [List.range_succ, List.map_append, List.foldl_append]
    by_cases hlast : (f n).OnPages v
    · exact Or.inl ⟨n, Nat.lt_succ_self n, hlast, fun l' hl hgt => by omega, if_pos hlast⟩
    · have hsame : (List.map f [n]).foldl (laidOver bytes) (((List.range n).map f).foldl (laidOver bytes) content) v =
          ((List.range n).map f).foldl (laidOver bytes) content v := if_neg hlast
      rw [hsame]
      rcases ih with ⟨l, hl, hon, hafter, heq⟩ | ⟨hnone, heq⟩
      · refine Or.inl ⟨l, by omega, hon, fun l' hl' hgt => ?_, heq⟩
        by_cases hn : l' = n
        · rw [hn]
          exact hlast
        · exact hafter l' (by omega) hgt
      · refine Or.inr ⟨fun l hl => ?_, heq⟩
        by_cases hn : l = n
        · rw [hn]
          exact hlast
        · exact hnone l (by omega)

/-- An image that has been loaded has at most as many pages as there are frames. -/
private theorem totalPages_le (T : Tables m kern tag) (hl : load m (.ofBytes bytes hlen) none = some (m', some loaded))
    {k : Nat} (hk : k < headerCount bytes) : (header bytes k).totalPages ≤ 2 ^ 36 := by
  obtain ⟨tag', h⟩ := placed_load T hl
  have hpages : (imagePages bytes).length ≤ maxTrackedFrames := by
    by_cases hnil : imagePages bytes = []
    · rw [hnil]
      exact Nat.zero_le _
    · have hpos := List.length_pos_of_ne_nil hnil
      obtain ⟨idx, hidx, -⟩ := h.places (k := (imagePages bytes).length - 1)
        (List.getElem?_eq_getElem (by omega)) fun l v hgt hv => by
          have := (List.getElem?_eq_some_iff.1 hv).1
          omega
      have hlt := (List.getElem?_eq_some_iff.1 hidx).1
      have hfree : m.freeFrames.length ≤ maxTrackedFrames := by
        refine Nat.le_trans (List.length_filter_le _ _) ?_
        rw [List.length_range]
        decide
      unfold frameNo at hlt
      omega
  have hseg : (segmentPages (header bytes k)).length ≤ (imagePages bytes).length := by
    have hmem : segmentPages (header bytes k) ∈
        (List.range (headerCount bytes)).map fun i => segmentPages (header bytes i) :=
      List.mem_map.2 ⟨k, List.mem_range.2 hk, rfl⟩
    exact (List.sublist_flatten_of_mem hmem).length_le
  have htotal : (segmentPages (header bytes k)).length = (header bytes k).totalPages := by
    unfold segmentPages Elf64Phdr.totalPages
    split
    · rfl
    · rw [List.length_map, List.length_range]
      rfl
  unfold maxTrackedFrames at hpages
  omega

/-- What the address space has after the image has been loaded. -/
theorem hasBytes_load (T : Tables m kern tag) (hl : load m (.ofBytes bytes hlen) none = some (m', some loaded)) :
    (∀ k < headerCount bytes, (header bytes k).type = ptLoad →
      (header bytes k).offset + (header bytes k).filesz ≤ bytes.length) ∧
      ∀ v, m'.loadByte loaded.pml4Phys v =
        ((List.range (headerCount bytes)).map (header bytes)).foldl (laidOver bytes) (fun _ => none) v := by
  have hsmall := fun {k} => totalPages_le T hl (k := k)
  obtain ⟨m₁, halloc, hseg⟩ := load_eq_some hl
  obtain ⟨hfits, tag', h'⟩ := hasBytes_loadSegments (hasBytes_root T halloc)
    (fun j _ hj => hsmall (by rw [Nat.zero_add] at hj; exact hj)) hseg
  refine ⟨fun k hk => hfits k (Nat.zero_le k) (by rw [Nat.zero_add]; exact hk), fun v => ?_⟩
  rw [List.range_eq_range']
  exact h'.bytes v

end Load

/-- The loader builds the image that the file describes if and only if no byte is lost to a later segment. -/
theorem imageBuilt_iff {m m' : Memory} {kern : Word} {tag : Tags} {bytes : List Byte} {hlen : bytes.length < 2 ^ 63}
    {loaded : LoadedElf} (T : Tables m kern tag)
    (hl : load m (.ofBytes bytes hlen) none = some (m', some loaded)) :
    ImageBuilt m' loaded.pml4Phys bytes ↔ Intact bytes := by
  obtain ⟨hfits, hbytes⟩ := hasBytes_load T hl
  constructor
  · intro h k hk hload i hi hlast
    have hbyte := h k hk hload i hi hlast
    rw [hbytes] at hbyte
    rcases foldl_over (header bytes) (headerCount bytes) (fun _ => none)
      (BitVec.ofNat 64 ((header bytes k).vaddr + i)) with ⟨l, hl, hon, hafter, heq⟩ | ⟨-, heq⟩
    · exact ⟨l, hl, hon, hafter, heq.symm.trans hbyte⟩
    · -- the file has a byte for the address
      rw [heq] at hbyte
      unfold Elf64Phdr.imageByte at hbyte
      split at hbyte
      · have hin := hfits k hk hload
        rw [List.getElem?_eq_getElem (by omega)] at hbyte
        cases hbyte
      · cases hbyte
  · intro h k hk hload i hi hlast
    obtain ⟨l, hl, hon, hafter, hbyte⟩ := h k hk hload i hi hlast
    rw [hbytes, ← hbyte]
    rcases foldl_over (header bytes) (headerCount bytes) (fun _ => none)
      (BitVec.ofNat 64 ((header bytes k).vaddr + i)) with ⟨l', hl', hon', hafter', heq⟩ | ⟨hnone, -⟩
    · have hsame : l' = l := by
        rcases Nat.lt_trichotomy l' l with hlt | heq | hgt
        · exact absurd hon (hafter' l hl hlt)
        · exact heq
        · exact absurd hon' (hafter l' hl' hgt)
      rw [heq, hsame]
    · exact absurd hon (hnone l hl)

/-! ### Two segments of one byte -/

/-- The byte `0x90` at `0x400000`, and the byte `0xc3` at the address behind it whose low bytes are `lo` and `hi`. -/
def twoSegments (lo hi : Byte) : List Byte :=
  [0x7f, 0x45, 0x4c, 0x46, 2, 1, 1, 0, 0, 0, 0, 0, 0, 0, 0, 0, 2, 0, 0x3e, 0, 1, 0, 0, 0, 0, 0, 0x40, 0, 0, 0, 0, 0,
   0x40, 0, 0, 0, 0, 0, 0, 0, 0, 0, 0, 0, 0, 0, 0, 0, 0, 0, 0, 0, 0x40, 0, 0x38, 0, 2, 0, 0, 0, 0, 0, 0, 0,
   1, 0, 0, 0, 5, 0, 0, 0, 176, 0, 0, 0, 0, 0, 0, 0, 0, 0, 0x40, 0, 0, 0, 0, 0, 0, 0, 0, 0, 0, 0, 0, 0,
   1, 0, 0, 0, 0, 0, 0, 0, 1, 0, 0, 0, 0, 0, 0, 0, 0, 0, 0, 0, 0, 0, 0, 0,
   1, 0, 0, 0, 5, 0, 0, 0, 177, 0, 0, 0, 0, 0, 0, 0, lo, hi, 0x40, 0, 0, 0, 0, 0, 0, 0, 0, 0, 0, 0, 0, 0,
   1, 0, 0, 0, 0, 0, 0, 0, 1, 0, 0, 0, 0, 0, 0, 0, 0, 0, 0, 0, 0, 0, 0, 0, 0x90, 0xc3]

theorem length_twoSegments (lo hi : Byte) : (twoSegments lo hi).length < 2 ^ 63 := by
  show 178 < 2 ^ 63
  decide

private theorem loaded_twoSegments (lo hi : Byte) (haccepts : accepts (twoSegments lo hi) = true)
    (hcard : (imagePages (twoSegments lo hi)).length + (tablesFor (imagePages (twoSegments lo hi))).card ≤ 5) :
    ∃ tag m' loaded, Tables (withFree (List.range' 512 6)) 0x10000 tag ∧
      load (withFree (List.range' 512 6)) (.ofBytes (twoSegments lo hi) (length_twoSegments lo hi)) none =
        some (m', some loaded) := by
  have his : ∀ i ∈ List.range' 512 6, 512 ≤ i ∧ i < 765 := by decide
  have hfree := freeFrames_withFree (by decide : (List.range' 512 6).Pairwise (· < ·)) his
  obtain ⟨tag, T⟩ := tables_withFree his
  have hroom : Room (withFree (List.range' 512 6)) (imagePages (twoSegments lo hi)) := by
    refine ⟨usable_withFree (by decide) his, ?_⟩
    rw [hfree, List.length_range']
    omega
  obtain ⟨m', loaded, hload⟩ := (exists_load_iff T hroom).2 haccepts
  exact ⟨tag, m', loaded, T, hload⟩

/-- With a page for each of the two bytes the image is built. -/
theorem imageBuilt_apart : ∃ tag m' loaded, Tables (withFree (List.range' 512 6)) 0x10000 tag ∧
    load (withFree (List.range' 512 6)) (.ofBytes (twoSegments 0 0x10) (length_twoSegments 0 0x10)) none =
      some (m', some loaded) ∧ ImageBuilt m' loaded.pml4Phys (twoSegments 0 0x10) := by
  obtain ⟨tag, m', loaded, T, hload⟩ :=
    loaded_twoSegments 0 0x10 (by decide +kernel) (by decide +kernel)
  have hintact : Intact (twoSegments 0 0x10) := by
    intro k hk _
    rw [show headerCount (twoSegments 0 0x10) = 2 from by decide +kernel] at hk
    obtain rfl | rfl : k = 0 ∨ k = 1 := by omega
    · decide +kernel
    · decide +kernel
  exact ⟨tag, m', loaded, T, hload, (imageBuilt_iff T hload).2 hintact⟩

/-- If both bytes lie on one page, the second segment takes the first byte away. -/
theorem imageBuilt_shared : ∃ tag m' loaded, Tables (withFree (List.range' 512 6)) 0x10000 tag ∧
    load (withFree (List.range' 512 6)) (.ofBytes (twoSegments 1 0) (length_twoSegments 1 0)) none =
      some (m', some loaded) ∧ ¬ ImageBuilt m' loaded.pml4Phys (twoSegments 1 0) := by
  obtain ⟨tag, m', loaded, T, hload⟩ := loaded_twoSegments 1 0 (by decide +kernel) (by decide +kernel)
  refine ⟨tag, m', loaded, T, hload, fun h => ?_⟩
  have hbyte := h 0 (by decide +kernel) (by decide +kernel) 0 (by decide +kernel) (by decide +kernel)
  rw [(hasBytes_load T hload).2] at hbyte
  revert hbyte
  decide +kernel

end Elf

end Rost
