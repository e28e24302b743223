import Rost.Kernel.Housing
import Rost.Kernel.Lifetime
import Rost.Memory.Supply
import Mathlib.Data.Finset.Union

/-!
# Where the loader places the pages of an image

The loader maps the pages of an image in a fixed order (`imagePages`) and gives them the free frames in ascending order.
The PML4 comes first, and the tables for which the pool has no frame come in between, so the frame of a page is the one
with the number `frameNo` among the free ones (`Placed`).
-/

namespace Rost

open Lib.TableTree (Layout resolve)
open Lib.TableTree.Layout (setTag)
open Memory (Tables Builds Consumes Owned OwnedPath PageAt Drawn TablesAt tablesOf pageEntry)

namespace Elf

/-! ### The pages of an image -/

/-- The pages of a segment, in the order in which they are mapped. -/
def segmentPages (ph : Elf64Phdr) : List Word :=
  if ph.type ≠ ptLoad ∨ ph.memsz = 0 then []
  else
    let vaddr := BitVec.ofNat 64 ph.vaddr
    let totalPages := wrapAdd 64 (wrapAdd 64 (vaddr &&& 0xFFF#64).toNat ph.memsz) 4095 / 4096
    (List.range totalPages).map fun pageIdx => (vaddr &&& ~~~0xFFF#64) + BitVec.ofNat 64 (pageIdx * 4096)

/-- The program header with number `i`. -/
def programHeader (bytes : List Byte) (phoff i : Nat) : Elf64Phdr :=
  .ofBytes ((bytes.drop (wrapAdd 64 phoff (i * phdrSize))).take phdrSize)

/-- The pages of the segments of an image. -/
def imagePages (bytes : List Byte) : List Word :=
  let ehdr := Elf64Ehdr.ofBytes (bytes.take ehdrSize)
  (List.range ehdr.phnum).flatMap fun i => segmentPages (programHeader bytes ehdr.phoff i)

/-- The pages of the stack. -/
def stackPages : List Word :=
  (List.range userStackPages).map fun page =>
    userStackTop - BitVec.ofNat 64 (userStackPages * 4096) + BitVec.ofNat 64 (page * 4096)

/-- The pages of a process that has been spawned, in their order. -/
def loadedPages (bytes : List Byte) : List Word := imagePages bytes ++ stackPages

/-- The paths of the page tables that a list of pages needs. -/
def tablesFor (pages : List Word) : Finset (List (Fin 512)) := pages.toFinset.biUnion tablesOf

/-- Among the free frames, the number of the one that the page with number `k` gets: the PML4 and the pages before it
come first, and their tables as far as the pool has no frames for them. -/
def frameNo (pool : Nat) (pages : List Word) (k : Nat) : Nat :=
  1 + k + ((tablesFor (pages.take k)).card - pool)

theorem eq_of_readBytes {bytes bs : List Byte} {hlen : bytes.length < 2 ^ 63} {m : Memory} {off n : Nat}
    (h : (Image.ofBytes bytes hlen).readBytes m off n = some bs) : bs = (bytes.drop off).take n := by
  induction n generalizing off bs with
  | zero =>
    cases h
    rfl
  | succ n ih =>
    obtain ⟨b, hb, hrest⟩ := Option.bind_eq_some_iff.1 h
    obtain ⟨rest, hr, rfl⟩ := Option.map_eq_some_iff.1 hrest
    have hb : bytes[off]? = some b := hb
    obtain ⟨hlt, hget⟩ := List.getElem?_eq_some_iff.1 hb
    rw [ih hr, List.drop_eq_getElem_cons hlt, List.take_succ_cons, hget]

/-- Each page of a segment that has been loaded got a frame, a copy of its part of the file, and a place in the PML4. -/
theorem loadPages_succ {m m' : Memory} {o flags base : Word} {img : Image} {segOff segLen align count pageIdx : Nat}
    {frames frames' : List Word}
    (hl : loadPages img o flags base segOff segLen align (count + 1) pageIdx m frames = some (m', some frames')) :
    ∃ m₁ phys m₂ m₃, m.globalAlloc4k = (m₁, some phys) ∧
      copyPage img segOff segLen align pageIdx phys ((m₁.frameTag phys .userOwned).zeroFrame phys) = some m₂ ∧
      m₂.mapPageGlobal o (base + BitVec.ofNat 64 (pageIdx * 4096)) phys flags = (m₃, true) ∧
      loadPages img o flags base segOff segLen align count (pageIdx + 1) m₃ (track frames phys) =
        some (m', some frames') := by
  unfold loadPages at hl
  split at hl
  · cases hl
  · rename_i m₁ phys halloc
    simp only at hl
    split at hl
    · cases hl
    · rename_i m₂ hcopy
      split at hl
      · cases hl
      · rename_i m₃ hmap
        exact ⟨m₁, phys, m₂, m₃, halloc, hcopy, hmap, hl⟩

/-- Each program header of an image that has been loaded lies in the file, and its segment has been loaded. -/
theorem loadSegments_succ {m m' : Memory} {o : Word} {bytes : List Byte} {hlen : bytes.length < 2 ^ 63}
    {phoff count i : Nat} {frames frames' : List Word}
    (hl : loadSegments (.ofBytes bytes hlen) o phoff (count + 1) i m frames = some (m', some frames')) :
    (wrapAdd 64 (wrapAdd 64 phoff (i * phdrSize)) phdrSize ≤ bytes.length ∧
      wrapAdd 64 phoff (i * phdrSize) ≤ bytes.length) ∧
      ∃ m₁ frames₁,
        loadSegment (.ofBytes bytes hlen) o (programHeader bytes phoff i) m frames = some (m₁, some frames₁) ∧
        loadSegments (.ofBytes bytes hlen) o phoff count (i + 1) m₁ frames₁ = some (m', some frames') := by
  unfold loadSegments at hl
  simp only at hl
  split at hl
  · cases hl
  · rename_i hend
    split at hl
    · cases hl
    · rename_i hoff
      rw [Image.ofBytes_len] at hend hoff
      split at hl
      · cases hl
      · rename_i bs hread
        split at hl
        · cases hl
        · cases hl
        · rename_i m₁ frames₁ hseg
          rw [eq_of_readBytes hread] at hseg
          exact ⟨⟨Nat.le_of_not_lt hend, Nat.le_of_not_lt hoff⟩, m₁, frames₁, hseg, hl⟩

/-- An image that has been loaded got a PML4, and its segments have been loaded. -/
theorem load_eq_some {m m' : Memory} {bytes : List Byte} {hlen : bytes.length < 2 ^ 63} {loaded : LoadedElf}
    (hl : load m (.ofBytes bytes hlen) none = some (m', some loaded)) :
    ∃ m₁, m.globalAlloc4k = (m₁, some loaded.pml4Phys) ∧
      loadSegments (.ofBytes bytes hlen) loaded.pml4Phys (Elf64Ehdr.ofBytes (bytes.take ehdrSize)).phoff
        (Elf64Ehdr.ofBytes (bytes.take ehdrSize)).phnum 0 (m₁.zeroFrame loaded.pml4Phys) (track [] loaded.pml4Phys) =
        some (m', some loaded.frames) := by
  unfold load at hl
  split at hl
  · cases hl
  · split at hl
    · cases hl
    · rename_i bs hread
      have hread : bs = bytes.take ehdrSize := eq_of_readBytes hread
      simp only at hl
      split at hl
      · cases hl
      · split at hl
        · cases hl
        · rename_i m₁ o halloc
          obtain ⟨⟨m₂, r⟩, hseg, heq⟩ := Option.map_eq_some_iff.1 hl
          simp only [Prod.mk.injEq] at heq
          obtain ⟨rfl, hr⟩ := heq
          obtain ⟨frames, rfl, rfl⟩ := Option.map_eq_some_iff.1 hr
          subst hread
          exact ⟨m₁, halloc, hseg⟩

theorem tablesFor_append (pages : List Word) (virt : Word) :
    tablesFor (pages ++ [virt]) = tablesFor pages ∪ tablesOf virt := by
  unfold tablesFor
  rw [List.toFinset_append, Finset.union_biUnion]
  simp

/-! ### Placing one page -/

/-- An address space has been built from `m₀`: the PML4 `o`, and the given pages, each in the frame that was next. -/
structure Placed (m₀ : Memory) (kern o : Word) (pages : List Word) (m : Memory) (tag : Tags) : Prop where
  tables : Tables m kern tag
  root : tag o = some (o, [])
  ne_kern : o ≠ kern
  unshared : Unshared m tag o
  built : TablesAt tag o (tablesFor pages)
  drawn : Drawn m₀ m (1 + pages.length) (tablesFor pages).card
  places : ∀ {k virt}, pages[k]? = some virt → (∀ l v, k < l → pages[l]? = some v → pathOf v ≠ pathOf virt) →
    ∃ idx, m₀.freeFrames[frameNo m₀.ptPool.length pages k]? = some idx ∧
      m.translateAddress o virt = some (m₀.frameAddr idx ||| virt &&& 0xFFF#64)

section Placed

variable {m₀ m m₁ m₂ m₃ : Memory} {kern o phys virt flags : Word} {tag : Tags} {pages : List Word}

private theorem frameNo_append (pool : Nat) {k : Nat} (hk : k ≤ pages.length) (virt : Word) :
    frameNo pool (pages ++ [virt]) k = frameNo pool pages k := by
  unfold frameNo
  rw [List.take_append_of_le_length hk]

/-- A frame that has been handed out and filled changes nothing in the page tables. -/
theorem Placed.filled (h : Placed m₀ kern o pages m tag) (halloc : m.globalAlloc4k = (m₁, some phys))
    (hcons : Consumes m₁ m₂) (hram : ∀ f, f ≠ phys → ∀ j, m₂.ram f j = m₁.ram f j) (virt flags : Word) :
    Builds (PageAt virt phys flags) kern o m tag m₂ tag ∧ OwnedPath m₂ tag o virt := by
  have hcons₁ := Consumes.globalAlloc4k m
  rw [halloc] at hcons₁
  obtain ⟨-, hfresh, hram₁⟩ := h.tables.globalAlloc4k halloc
  have hne : ∀ {f t}, tag f = some t → f ≠ phys := by
    rintro f t hf rfl
    rw [hfresh.untagged] at hf
    cases hf
  have hdata : Builds (PageAt virt phys flags) kern o m tag m₂ tag :=
    .of_data h.tables (hcons₁.trans hcons) fun f t hf j => by rw [hram f (hne hf) j, hram₁]
  have hun := h.unshared
  have hpath : OwnedPath m tag o virt := ⟨hun _ _ (by decide), hun _ _ (by simp), hun _ _ (by simp)⟩
  exact ⟨hdata, hpath.builds hdata fun _ _ => PageAt.length⟩

/-- One more page: a frame is handed out, filled and mapped. -/
theorem Placed.page (h : Placed m₀ kern o pages m tag) (halloc : m.globalAlloc4k = (m₁, some phys))
    (hcons : Consumes m₁ m₂) (hram : ∀ f, f ≠ phys → ∀ j, m₂.ram f j = m₁.ram f j)
    (hbitmap : m₂.freeBitmap = m₁.freeBitmap) (hpool : m₂.ptPool = m₁.ptPool) (haddr : flags &&& pteAddrMask = 0)
    (hpresent : flags &&& ptePresent ≠ 0) (hmap : m₂.mapPageGlobal o virt phys flags = (m₃, true)) :
    ∃ tag', Placed m₀ kern o (pages ++ [virt]) m₃ tag' := by
  have hfresh := (h.tables.globalAlloc4k halloc).2.1
  have hun := h.unshared
  obtain ⟨hdata, hpath⟩ := h.filled halloc hcons hram virt flags
  obtain ⟨hd₁, idx, hidx, hphys⟩ := h.drawn.data halloc
  have hd₂ := hd₁.congr hcons.region hbitmap hpool
  obtain ⟨tag', hb, hbuilt, hd₃⟩ := hd₂.mapPageGlobal hdata.tables h.root hpath h.built hmap
  have hall := hdata.trans hb
  obtain ⟨-, -, -, htrans⟩ := hdata.tables.mapPageGlobal_any h.root hmap
  have htrans := htrans rfl (by rw [Memory.pageEntry_present]; exact hpresent)
  rw [Memory.pageEntry_addr hfresh.reserved.addr haddr, hphys] at htrans
  refine ⟨tag', hb.tables, hb.grows.keeps h.root, h.ne_kern, fun p j hp => ?_, ?_, ?_, ?_⟩
  · refine hall.owned (fun e he => ?_) (hun p j hp)
    have hlen := PageAt.length he
    rw [List.length_append, List.length_singleton] at hlen
    omega
  · rw [tablesFor_append]
    exact hbuilt
  · rw [tablesFor_append, List.length_append, List.length_singleton, ← Nat.add_assoc]
    exact hd₃
  · intro k v hk hlast
    by_cases hklt : k < pages.length
    · rw [List.getElem?_append_left hklt] at hk
      obtain ⟨i, hi, hv⟩ := h.places hk fun l w hl hw => by
        refine hlast l w hl ?_
        rw [List.getElem?_append_left (List.getElem?_eq_some_iff.1 hw).1]
        exact hw
      rw [frameNo_append _ (by omega)]
      refine ⟨i, hi, ?_⟩
      -- the new page is another one
      have hother : pathOf virt ≠ pathOf v :=
        hlast pages.length virt hklt (by rw [List.getElem?_append_right (Nat.le_refl _), Nat.sub_self]; rfl)
      rw [← hv, Memory.translateAddress_eq, Memory.translateAddress_eq, hall.resolves h.root rfl fun q e hq hw => ?_]
      rw [show q = pathOf virt from hw.1, List.nil_append] at hq
      exact hother (hq.eq_of_length rfl)
    · have hkeq : k = pages.length := by
        have := (List.getElem?_eq_some_iff.1 hk).1
        rw [List.length_append, List.length_singleton] at this
        omega
      subst hkeq
      rw [List.getElem?_append_right (Nat.le_refl _), Nat.sub_self] at hk
      cases hk
      refine ⟨idx, ?_, htrans⟩
      rw [frameNo_append _ (Nat.le_refl _), ← hidx]
      unfold frameNo
      rw [List.take_length]

/-- The PML4 is the first frame. -/
theorem placed_root (T : Tables m kern tag) (halloc : m.globalAlloc4k = (m₁, some o)) :
    Placed m kern o [] (m₁.zeroFrame o) (setTag tag o (o, [])) := by
  obtain ⟨T₁, hun⟩ := newRoot T halloc
  have hfresh := (T.globalAlloc4k halloc).2.1
  obtain ⟨hd, -⟩ := (Drawn.refl m).data halloc
  have hnone : tablesFor [] = ∅ := rfl
  have hd₀ : Drawn m (m₁.zeroFrame o) (1 + ([] : List Word).length) (tablesFor []).card := by
    rw [hnone, Finset.card_empty]
    exact hd.congr rfl rfl rfl
  refine ⟨T₁, Layout.setTag_self _ _ _, ?_, hun, fun p hp => ?_, hd₀, fun hk => by cases hk⟩
  · rintro rfl
    have hnone := hfresh.untagged
    rw [T.layout.kern_root] at hnone
    cases hnone
  · refine iff_of_false (by rw [hnone]; exact Finset.notMem_empty p) ?_
    rintro ⟨f, hf⟩
    rcases Layout.setTag_eq_some hf with ⟨-, heq⟩ | ⟨-, hf⟩
    · exact hp (Prod.mk.inj heq).2
    · have hroot := T.layout.root_of_tag hf
      rw [hfresh.untagged] at hroot
      cases hroot

end Placed

/-! ### Placing an image -/

private theorem writeBytes_eq (m : Memory) (phys : Word) (bytes : List Byte) :
    writeBytes m phys bytes = { m with ram := (writeBytes m phys bytes).ram } := by
  induction bytes generalizing m phys with
  | nil => rfl
  | cons b bytes ih => exact ih (m.writeByte phys b) (phys + 1)

private theorem copyPage_eq {img : Image} {segOff segLen align pageIdx : Nat} {phys : Word} {m m' : Memory}
    (h : copyPage img segOff segLen align pageIdx phys m = some m') : m' = { m with ram := m'.ram } := by
  unfold copyPage at h
  simp only at h
  generalize (if pageIdx = 0 then 0 else pageIdx * 4096 - align) = segStart at h
  generalize (if pageIdx = 0 then align else 0) = physOffset at h
  split at h
  · obtain ⟨bytes, -, rfl⟩ := Option.map_eq_some_iff.1 h
    exact writeBytes_eq m _ bytes
  · cases h
    rfl

theorem segmentFlags_present (ph : Elf64Phdr) : segmentFlags ph &&& ptePresent ≠ 0 := by
  unfold segmentFlags
  simp only
  split <;> split <;> decide

section Image

variable {m₀ m m' : Memory} {kern o : Word} {tag : Tags} {pages frames frames' : List Word}

/-- A frame that is handed out, zeroed and filled from the image. -/
theorem filled_copyPage {m₁ m₂ : Memory} {phys : Word} {img : Image} {segOff segLen align pageIdx : Nat}
    (h : Placed m₀ kern o pages m tag) (halloc : m.globalAlloc4k = (m₁, some phys))
    (hcopy : copyPage img segOff segLen align pageIdx phys ((m₁.frameTag phys .userOwned).zeroFrame phys) = some m₂) :
    Consumes m₁ m₂ ∧ (∀ f, f ≠ phys → ∀ j, m₂.ram f j = m₁.ram f j) ∧ m₂.freeBitmap = m₁.freeBitmap ∧
      m₂.ptPool = m₁.ptPool := by
  have hphys := (h.tables.globalAlloc4k halloc).2.1.reserved.addr
  refine ⟨((Consumes.frameTag m₁ phys .userOwned).trans (.zeroFrame _ phys)).trans (consumes_copyPage hcopy), ?_, ?_, ?_⟩
  · intro f hf j
    rw [copyPage_ram_of_ne hphys hcopy hf j, Memory.zeroFrame_ram, if_neg hf, Memory.frameTag_ram]
  · rw [copyPage_eq hcopy]
    exact Memory.frameTag_freeBitmap m₁ phys .userOwned
  · rw [copyPage_eq hcopy]
    exact Memory.frameTag_ptPool m₁ phys .userOwned

theorem placed_loadPages {img : Image} {flags base : Word} {segOff segLen align count pageIdx : Nat}
    (h : Placed m₀ kern o pages m tag) (haddr : flags &&& pteAddrMask = 0) (hpresent : flags &&& ptePresent ≠ 0)
    (hl : loadPages img o flags base segOff segLen align count pageIdx m frames = some (m', some frames')) :
    ∃ tag', Placed m₀ kern o
      (pages ++ (List.range' pageIdx count).map fun i => base + BitVec.ofNat 64 (i * 4096)) m' tag' := by
  induction count generalizing pageIdx m frames tag pages with
  | zero =>
    cases hl
    rw [List.range'_zero, List.map_nil, List.append_nil]
    exact ⟨tag, h⟩
  | succ count ih =>
    obtain ⟨m₁, phys, m₂, m₃, halloc, hcopy, hmap, hl⟩ := loadPages_succ hl
    obtain ⟨hcons, hram, hbitmap, hpool⟩ := filled_copyPage h halloc hcopy
    obtain ⟨tag₃, h₃⟩ := h.page halloc hcons hram hbitmap hpool haddr hpresent hmap
    obtain ⟨tag', h'⟩ := ih h₃ hl
    rw [List.range'_succ, List.map_cons, List.append_cons]
    exact ⟨tag', h'⟩

theorem placed_loadSegment {img : Image} {ph : Elf64Phdr} (h : Placed m₀ kern o pages m tag)
    (hl : loadSegment img o ph m frames = some (m', some frames')) :
    ∃ tag', Placed m₀ kern o (pages ++ segmentPages ph) m' tag' := by
  unfold loadSegment at hl
  unfold segmentPages
  split at hl
  · rename_i htype
    cases hl
    rw [if_pos (Or.inl htype), List.append_nil]
    exact ⟨tag, h⟩
  · rename_i htype
    split at hl
    · cases hl
    · split at hl
      · rename_i hempty
        cases hl
        rw [if_pos (Or.inr hempty), List.append_nil]
        exact ⟨tag, h⟩
      · rename_i hempty
        rw [if_neg (not_or.2 ⟨htype, hempty⟩)]
        simp only [List.range_eq_range']
        exact placed_loadPages h (segmentFlags_addr ph) (segmentFlags_present ph) hl

theorem placed_loadSegments {bytes : List Byte} {hlen : bytes.length < 2 ^ 63} {phoff count i : Nat}
    (h : Placed m₀ kern o pages m tag)
    (hl : loadSegments (.ofBytes bytes hlen) o phoff count i m frames = some (m', some frames')) :
    ∃ tag', Placed m₀ kern o
      (pages ++ (List.range' i count).flatMap fun i => segmentPages (programHeader bytes phoff i)) m' tag' := by
  induction count generalizing i m frames tag pages with
  | zero =>
    cases hl
    rw [List.range'_zero, List.flatMap_nil, List.append_nil]
    exact ⟨tag, h⟩
  | succ count ih =>
    obtain ⟨-, m₁, frames₁, hseg, hl⟩ := loadSegments_succ hl
    obtain ⟨tag₁, h₁⟩ := placed_loadSegment h hseg
    obtain ⟨tag', h'⟩ := ih h₁ hl
    rw [List.range'_succ, List.flatMap_cons, ← List.append_assoc]
    exact ⟨tag', h'⟩

/-- Loading an image into a fresh PML4 places its pages. -/
theorem placed_load {bytes : List Byte} {hlen : bytes.length < 2 ^ 63} (T : Tables m kern tag) {loaded : LoadedElf}
    (hl : load m (.ofBytes bytes hlen) none = some (m', some loaded)) :
    ∃ tag', Placed m kern loaded.pml4Phys (imagePages bytes) m' tag' := by
  obtain ⟨m₁, halloc, hseg⟩ := load_eq_some hl
  obtain ⟨tag', h'⟩ := placed_loadSegments (placed_root T halloc) hseg
  rw [List.nil_append] at h'
  refine ⟨tag', ?_⟩
  unfold imagePages
  simp only [List.range_eq_range']
  exact h'

theorem placed_mapStack {count page : Nat} (h : Placed m₀ kern o pages m tag)
    (hs : mapStack o count page m frames = (m', some frames')) :
    ∃ tag', Placed m₀ kern o (pages ++ (List.range' page count).map fun page =>
      userStackTop - BitVec.ofNat 64 (userStackPages * 4096) + BitVec.ofNat 64 (page * 4096)) m' tag' := by
  induction count generalizing page m frames tag pages with
  | zero =>
    cases hs
    rw [List.range'_zero, List.map_nil, List.append_nil]
    exact ⟨tag, h⟩
  | succ count ih =>
    unfold mapStack at hs
    split at hs
    · cases hs
    · rename_i m₁ phys halloc
      have hram : ∀ f, f ≠ phys → ∀ j, (m₁.zeroFrame phys).ram f j = m₁.ram f j := by
        intro f hf j
        rw [Memory.zeroFrame_ram, if_neg hf]
      simp only at hs
      split at hs
      · cases hs
      · rename_i m₃ hmap
        obtain ⟨tag₃, h₃⟩ := h.page halloc (.zeroFrame m₁ phys) hram rfl rfl (by decide) (by decide) hmap
        obtain ⟨tag', h'⟩ := ih h₃ hs
        rw [List.range'_succ, List.map_cons, List.append_cons]
        exact ⟨tag', h'⟩

end Image

end Elf

end Rost
